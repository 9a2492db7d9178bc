import KnightCode.Proofs.Runs

/-!
# The classes of objects

The type of an object refers to a class constant, on the operand stack, in the local variables and at every label of a
body, whatever the calls are.
-/

namespace KnightCode

/-- If it is the type of an object, its index leads to a class. -/
def VerificationType.Named (pool : ConstantPool) : VerificationType → Prop
  | .object i => ∃ name, pool.IsClass i name
  | _ => True

theorem VerificationType.Named.mono {pool later : ConstantPool} {t : VerificationType} (hext : pool.Extends later)
    (h : t.Named pool) : t.Named later := by
  cases t with
  | object i =>
    obtain ⟨name, hi⟩ := h
    exact ⟨name, hi.mono hext⟩
  | _ => trivial

theorem JavaType.Stands.named {type : JavaType} {pool : ConstantPool} {t : VerificationType} (h : type.Stands pool t) :
    t.Named pool := by
  unfold JavaType.Stands at h
  split at h
  · rw [h]
    trivial
  · obtain ⟨name, i, -, rfl, hi⟩ := h
    exact ⟨name, hi⟩

theorem mem_mergeLocals {a b : Types} {t : VerificationType} (h : t ∈ mergeLocals a b) : t = .top ∨ t ∈ a := by
  obtain ⟨j, hj⟩ := Array.mem_iff_getElem?.1 h
  rw [mergeLocals, Array.getElem?_zipWith] at hj
  split at hj
  · next s u hs hu =>
    split at hj
    · cases hj
      exact .inr (Array.mem_of_getElem? hs)
    · cases hj
      exact .inl rfl
  · cases hj

def TypesNamed (pool : ConstantPool) (types : Types) : Prop := ∀ t ∈ types, t.Named pool

theorem TypesNamed.mono {pool later : ConstantPool} {types : Types} (hext : pool.Extends later)
    (h : TypesNamed pool types) : TypesNamed later types :=
  fun t ht => (h t ht).mono hext

theorem TypesNamed.push {pool : ConstantPool} {types : Types} (h : TypesNamed pool types) {t : VerificationType}
    (ht : t.Named pool) : TypesNamed pool (types.push t) := by
  intro u hu
  rcases Array.mem_push.1 hu with hu | rfl
  · exact h u hu
  · exact ht

theorem TypesNamed.empty {pool : ConstantPool} : TypesNamed pool #[] :=
  fun t ht => absurd ht (Array.not_mem_empty t)

theorem TypesNamed.of_push {pool : ConstantPool} {types : Types} {t : VerificationType}
    (h : TypesNamed pool (types.push t)) : TypesNamed pool types ∧ t.Named pool :=
  ⟨fun u hu => h u (Array.mem_push_of_mem _ hu), h t Array.mem_push_self⟩

theorem TypesNamed.of_append {pool : ConstantPool} {types more : Types} (h : TypesNamed pool (types ++ more)) :
    TypesNamed pool types :=
  fun t ht => h t (Array.mem_append_left _ ht)

theorem TypesNamed.assigned {pool : ConstantPool} {b : Body} (h : TypesNamed pool b.locals) (slot : UInt16)
    {t : VerificationType} (ht : t.Named pool) : TypesNamed pool (b.assigned slot t).locals := by
  intro u hu
  rcases Array.mem_or_eq_of_mem_setIfInBounds hu with hu | rfl
  · rcases Array.mem_append.1 hu with hu | hu
    · exact h u hu
    · rw [(Array.mem_replicate.1 hu).2]
      trivial
  · exact ht

theorem Body.Constructs.named {thisClass : UInt16} {m : MemberRef} {pool later : ConstantPool}
    {receiver : VerificationType} {f : VerificationType → VerificationType} {types : Types}
    (h : Constructs thisClass m later receiver f) (hext : pool.Extends later)
    (hthis : ∃ name, pool.IsClass thisClass name) (htypes : TypesNamed pool types) :
    TypesNamed later (types.map f) := by
  obtain ⟨name, hname⟩ := hthis
  intro t ht
  obtain ⟨u, hu, rfl⟩ := Array.mem_map.1 ht
  obtain rfl | ⟨j, hj, rfl⟩ := h
  · exact (htypes u hu).mono hext
  · simp only
    split
    · obtain rfl | hj := hj
      · exact ⟨name, hname.mono hext⟩
      · exact ⟨_, hj⟩
    · exact (htypes u hu).mono hext

structure Label.Named (pool : ConstantPool) (l : Label) : Prop where
  locals : TypesNamed pool l.locals
  stack : ∀ S, l.stack = some S → TypesNamed pool S

theorem Label.Named.mono {pool later : ConstantPool} {l : Label} (hext : pool.Extends later) (h : l.Named pool) :
    l.Named later :=
  ⟨h.locals.mono hext, fun S hS => (h.stack S hS).mono hext⟩

theorem Label.Named.join {pool : ConstantPool} {l : Label} {stack : Types} (h : l.Named pool)
    (hstack : TypesNamed pool stack) (locals : Types) : (l.join stack locals).Named pool := by
  refine ⟨?_, ?_⟩
  · intro t ht
    rcases mem_mergeLocals ht with rfl | ht
    · trivial
    · exact h.locals t ht
  · intro S hS
    cases hS
    exact hstack

namespace Body

structure Named (b : Body) : Prop where
  thisClass : ∃ name, b.pool.IsClass b.thisClass name
  stack : TypesNamed b.pool b.stack
  locals : TypesNamed b.pool b.locals
  labels : ∀ (i : Nat) (l : Label), b.labels[i]? = some l → l.Named b.pool

variable {b m b' : Body}

theorem Named.grow {pool : ConstantPool} {S : Types} (h : b.Named) (hext : b.pool.Extends pool)
    (hS : TypesNamed pool S) (hpool : m.pool = pool) (hthis : m.thisClass = b.thisClass) (hstack : m.stack = S)
    (hlocals : m.locals = b.locals) (hlabels : m.labels = b.labels) : m.Named := by
  subst hpool
  refine ⟨?_, by rw [hstack]; exact hS, by rw [hlocals]; exact h.locals.mono hext, ?_⟩
  · obtain ⟨name, hname⟩ := h.thisClass
    rw [hthis]
    exact ⟨name, hname.mono hext⟩
  · intro i l hl
    rw [hlabels] at hl
    exact (h.labels i l hl).mono hext

theorem Named.added {pool : ConstantPool} {S : Types} (h : b.Named) (hext : b.pool.Extends pool)
    (hS : TypesNamed pool S) (item : Item) : (b.added pool item S).Named :=
  h.grow hext hS rfl rfl rfl rfl rfl

theorem Named.pushed {t : VerificationType} (h : b.Named) (ht : t.Named b.pool) : (b.pushed t).Named :=
  h.grow (.refl _) (h.stack.push ht) rfl rfl rfl rfl rfl

theorem Named.touched (h : b.Named) (slot : UInt16) : (b.touched slot).Named :=
  h.grow (.refl _) h.stack rfl rfl rfl rfl rfl

theorem Named.returned {result : JavaType} {pool : ConstantPool} (h : m.Named) (hpool : m.pool = pool)
    (hreturned : m.Returned b' result pool) : b'.Named := by
  subst hpool
  have hsame : Named { m with pool := m.pool } := h
  obtain ⟨-, rfl⟩ | ⟨-, t, ht, rfl⟩ := hreturned
  · exact hsame
  · exact hsame.pushed ht.named

theorem Named.of_modify {label : Nat} {f : Label → Label} (h : b.Named) (hpool : m.pool = b.pool)
    (hthis : m.thisClass = b.thisClass) (hlabels : m.labels = b.labels.modify label f)
    (hf : ∀ l : Label, l.Named b.pool → (f l).Named b.pool) (hstack : TypesNamed b.pool m.stack)
    (hlocals : TypesNamed b.pool m.locals) : m.Named := by
  refine ⟨by rw [hpool, hthis]; exact h.thisClass, by rw [hpool]; exact hstack, by rw [hpool]; exact hlocals, ?_⟩
  intro i l hl
  rw [hlabels] at hl
  rw [hpool]
  obtain ⟨-, l', hl', rfl⟩ | ⟨-, hl⟩ := getElem?_modify_cases hl
  · exact hf l' (h.labels label l' hl')
  · exact h.labels i l hl

theorem Loads.named {slot : UInt16} {kind : ValueKind} {pool : ConstantPool} {t : VerificationType}
    (h : Loads b.locals slot kind pool t) (hlocals : TypesNamed pool b.locals) : t.Named pool := by
  cases kind with
  | int =>
    have h : t = .integer := h
    rw [h]
    trivial
  | reference =>
    simp only [Loads] at h
    split at h
    · exact hlocals t (Array.mem_of_getElem? h)
    · obtain ⟨c, rfl, hc⟩ := h
      exact ⟨_, hc⟩

end Body

open Body in
theorem Call.Effect.named {c : Call} {b b' : Body} (h : c.Effect b b') (hb : b.Named) : b'.Named := by
  have hstack := hb.stack
  cases c with
  | pushInt value =>
    obtain ⟨pool, i, hgrows, -, rfl⟩ := h
    exact (hb.added hgrows.1 (hstack.mono hgrows.1) _).pushed trivial
  | pushText text =>
    obtain ⟨pool, i, k, hgrows, -, hk, rfl⟩ := h
    exact (hb.added hgrows.1 (hstack.mono hgrows.1) _).pushed (t := .object k) ⟨_, hk⟩
  | load slot kind =>
    obtain ⟨pool, t, hgrows, ht, rfl⟩ := h
    have ht := Loads.named (b := b) ht (hb.locals.mono hgrows.1)
    exact ((hb.added hgrows.1 (hstack.mono hgrows.1) _).pushed ht).touched slot
  | store slot kind =>
    obtain ⟨S, t, hS, rfl⟩ := h
    rw [hS] at hstack
    have hadded := hb.added (.refl _) hstack.of_push.1 (.plain (.store kind (.ofIndex slot)))
    exact Named.touched (b := (b.added b.pool _ S).assigned slot t)
      ⟨hadded.thisClass, hadded.stack, hb.locals.assigned slot hstack.of_push.2, hadded.labels⟩ slot
  | arithmetic op =>
    obtain ⟨S, popped, -, hS, rfl⟩ := h
    rw [hS] at hstack
    exact (hb.added (.refl _) hstack.of_append _).pushed trivial
  | newLabel =>
    obtain rfl := h
    refine ⟨hb.thisClass, hb.stack, hb.locals, ?_⟩
    intro i l hl
    obtain rfl | hl := getElem?_push_cases hl
    · exact ⟨hb.locals, nofun⟩
    · exact hb.labels i l hl
  | branch condition label =>
    obtain ⟨S, popped, l, -, hS, -, -, rfl⟩ := h
    rw [hS] at hstack
    refine hb.of_modify (f := fun l => { l.join S b.locals with referenced := true }) rfl rfl rfl ?_ hstack.of_append
      hb.locals
    intro l hl
    have hjoin := hl.join hstack.of_append b.locals
    exact ⟨hjoin.locals, hjoin.stack⟩
  | jump label =>
    obtain ⟨l, -, -, rfl⟩ := h
    refine hb.of_modify (f := fun l => { l.join b.stack b.locals with referenced := true }) rfl rfl rfl ?_ .empty
      hb.locals
    intro l hl
    have hjoin := hl.join hstack b.locals
    exact ⟨hjoin.locals, hjoin.stack⟩
  | bind label =>
    obtain ⟨l, hl, -, ⟨-, -, rfl⟩ | ⟨-, rfl⟩⟩ := h
    · refine hb.of_modify (f := fun l => { l.join b.stack b.locals with position := some b.items.size }) rfl rfl rfl ?_
        hstack hb.locals
      intro l hl
      have hjoin := hl.join hstack b.locals
      exact ⟨hjoin.locals, hjoin.stack⟩
    · -- The body takes its types over from the label.
      have hlabel := hb.labels label l hl
      refine hb.of_modify (f := fun l => { l with position := some b.items.size }) rfl rfl rfl
        (fun l hl => ⟨hl.locals, hl.stack⟩) ?_ hlabel.locals
      cases hS : l.stack with
      | none => exact .empty
      | some S => exact hlabel.stack S hS
  | getStatic m =>
    obtain ⟨pool, i, type, t, hgrows, -, ht, -, rfl⟩ := h
    exact (hb.added hgrows.1 (hstack.mono hgrows.1) _).pushed ht.named
  | putStatic m =>
    obtain ⟨pool, i, S, t, hgrows, -, hS, rfl⟩ := h
    rw [hS] at hstack
    exact hb.added hgrows.1 (hstack.of_push.1.mono hgrows.1) _
  | invokeVirtual m =>
    obtain ⟨pool, i, count, result, S, receiver, popped, hgrows, -, -, -, hS, hreturned⟩ := h
    rw [hS] at hstack
    exact (hb.added hgrows.1 (hstack.of_append.of_push.1.mono hgrows.1) _).returned rfl hreturned
  | invokeStatic m =>
    obtain ⟨pool, i, count, result, S, popped, hgrows, -, -, -, hS, hreturned⟩ := h
    rw [hS] at hstack
    exact (hb.added hgrows.1 (hstack.of_append.mono hgrows.1) _).returned rfl hreturned
  | invokeSpecial m =>
    obtain ⟨pool, i, count, result, S, receiver, popped, f, hgrows, -, -, -, hS, hf, hreturned⟩ := h
    rw [hS] at hstack
    have hleft := hf.named hgrows.1 hb.thisClass hstack.of_append.of_push.1
    have hadded := hb.added hgrows.1 hleft (.plain (.invokeSpecial i))
    have hmapped : Named { b.added pool (.plain (.invokeSpecial i)) (S.map f) with locals := b.locals.map f } :=
      ⟨hadded.thisClass, hadded.stack, hf.named hgrows.1 hb.thisClass hb.locals, hadded.labels⟩
    exact hmapped.returned rfl hreturned
  | new className =>
    obtain ⟨pool, i, hgrows, -, -, rfl⟩ := h
    exact (hb.added hgrows.1 (hstack.mono hgrows.1) _).pushed trivial
  | dup =>
    obtain ⟨S, t, hS, rfl⟩ := h
    refine (hb.added (.refl _) hstack _).pushed ?_
    rw [hS] at hstack
    exact hstack.of_push.2

theorem Performs.named {calls : List Call} {b b' : Body} (h : Performs calls b b') (hb : b.Named) : b'.Named := by
  induction h with
  | nil b => exact hb
  | cons first _ ih => exact ih (first.named hb)

theorem Body.named_start {pool : ConstantPool} {thisClass : UInt16} {entry : List VerificationType}
    (hthis : ∃ name, pool.IsClass thisClass name) (hentry : ∀ t ∈ entry, t.Named pool) (frames : Bool) :
    (Body.start pool thisClass entry frames).Named := by
  refine ⟨hthis, .empty, ?_, ?_⟩
  · intro t ht
    exact hentry t (List.mem_toArray.1 ht)
  · intro i l hl
    simp [Body.start] at hl

/-! ## Frames -/

theorem Body.mem_targetFrames {b : Body} {addressOf : Nat → Nat} {f : Frame} :
    f ∈ b.targetFrames addressOf ↔ ∃ (i : Nat) (l : Label) (p : Nat), b.labels[i]? = some l ∧ l.referenced = true ∧
      l.position = some p ∧ f = ⟨addressOf p, l.locals.toList, (l.stack.getD #[]).toList⟩ := by
  rw [Body.targetFrames, List.mem_filterMap]
  constructor
  · rintro ⟨l, hl, hf⟩
    obtain ⟨i, hi⟩ := List.getElem?_of_mem hl
    rw [Array.getElem?_toList] at hi
    split at hf
    · next hr =>
      obtain ⟨p, hp, rfl⟩ := Option.map_eq_some_iff.1 hf
      exact ⟨i, l, p, hi, hr, hp, rfl⟩
    · cases hf
  · rintro ⟨i, l, p, hl, hr, hp, rfl⟩
    refine ⟨l, Array.mem_toList_iff.2 (Array.mem_of_getElem? hl), ?_⟩
    rw [if_pos hr, hp]
    rfl

theorem Body.Named.targetFrames {b : Body} (h : b.Named) {addressOf : Nat → Nat} {f : Frame}
    (hf : f ∈ b.targetFrames addressOf) : ∀ t ∈ f.locals ++ f.stack, t.Named b.pool := by
  obtain ⟨i, l, -, hl, -, -, rfl⟩ := Body.mem_targetFrames.1 hf
  have hlabel := h.labels i l hl
  intro t ht
  rcases List.mem_append.1 ht with ht | ht
  · exact hlabel.locals t (Array.mem_toList_iff.1 ht)
  · cases hS : l.stack with
    | none => simp [hS] at ht
    | some S =>
      simp only [hS, Option.getD_some] at ht
      exact hlabel.stack S hS t (Array.mem_toList_iff.1 ht)

end KnightCode
