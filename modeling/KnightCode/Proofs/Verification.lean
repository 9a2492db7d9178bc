import KnightCode.Proofs.Junctions
import KnightCode.Proofs.StoredCode
import KnightCode.Proofs.TypeEffects

/-!
# Verified code

The finished code of typed calls passes the verifier. At each instruction the verifier has the types that the body had
when the instruction was added; where there is a frame, it holds the same types.
-/

namespace KnightCode

/-! ## Walks -/

theorem localsSuit_self (locals : List SlotType) : localsSuit locals locals = true := by
  induction locals with
  | nil => rfl
  | cons t locals ih => simp [localsSuit, ih]

theorem TypeFrame.suits_state (f : TypeFrame SlotType) : f.state.suits f = true := by
  simp [TypeState.suits, TypeFrame.state, localsSuit_self]

theorem Verifier.arrive?_none {v : Verifier} {address : Nat} (h : v.frameAt? address = none)
    (current : Option TypeState) : v.arrive? address current = current := by
  unfold arrive?
  rw [h]

theorem Verifier.arrive?_frame {v : Verifier} {address : Nat} {f : TypeFrame SlotType} (h : v.frameAt? address = some f)
    {current : Option TypeState} (hcurrent : current = some f.state ∨ current = none) :
    v.arrive? address current = some f.state := by
  unfold arrive?
  rw [h]
  rcases hcurrent with rfl | rfl
  · exact if_pos f.suits_state
  · rfl

theorem Verifier.walk_cons {v : Verifier} {address : Nat} {current : Option TypeState} {s : TypeState}
    {i : Instruction} {rest : List Instruction} (harrive : v.arrive? address current = some s) (s' : TypeState)
    (hafter : i.after? v.pool s = some s') (hroom : v.hasRoom s' i = true)
    (hbranch : v.branchSuits address s' i = true)
    (hrest : v.walk (address + i.size) (if i.fallsThrough then some s' else none) rest = true) :
    v.walk address current (i :: rest) = true := by
  rw [walk, harrive, Option.bind_some, hafter]
  simp only [hroom, hbranch, hrest, Bool.and_self]

theorem Call.Emits.flow {pool : ConstantPool} {c : Call} {i : Instruction} (h : c.Emits pool (.plain i)) :
    i.fallsThrough = true ∧ i.offset? = none ∧ i.slot? = c.slot? := by
  cases c with
  | pushInt value =>
    obtain ⟨j, hj, hi⟩ := h
    cases hj
    cases i <;> first | exact ⟨rfl, rfl, rfl⟩ | exact hi.elim
  | pushText text =>
    obtain ⟨j, hj, hi⟩ := h
    cases hj
    cases i <;> first | exact ⟨rfl, rfl, rfl⟩ | exact hi.elim
  | load slot kind =>
    cases h
    exact ⟨rfl, rfl, congrArg some (Slot.index_ofIndex slot)⟩
  | store slot kind =>
    cases h
    exact ⟨rfl, rfl, congrArg some (Slot.index_ofIndex slot)⟩
  | arithmetic op => cases h; exact ⟨rfl, rfl, rfl⟩
  | dup => cases h; exact ⟨rfl, rfl, rfl⟩
  | newLabel => exact h.elim
  | bind label => exact h.elim
  | branch condition label => cases h
  | jump label => cases h
  | getStatic m => obtain ⟨k, hk, -⟩ := h; cases hk; exact ⟨rfl, rfl, rfl⟩
  | putStatic m => obtain ⟨k, hk, -⟩ := h; cases hk; exact ⟨rfl, rfl, rfl⟩
  | invokeVirtual m => obtain ⟨k, hk, -⟩ := h; cases hk; exact ⟨rfl, rfl, rfl⟩
  | invokeStatic m => obtain ⟨k, hk, -⟩ := h; cases hk; exact ⟨rfl, rfl, rfl⟩
  | invokeSpecial m => obtain ⟨k, hk, -⟩ := h; cases hk; exact ⟨rfl, rfl, rfl⟩
  | new className => obtain ⟨k, hk, -⟩ := h; cases hk; exact ⟨rfl, rfl, rfl⟩

/-! ## Frames at labels -/

/-- The verifier has the frames, the sizes and the constants of a finished body. The local variables are of the types `L`
from the first label on. -/
structure Verifier.Checks (v : Verifier) (L : Types) (b : Body) (code : MethodCode) : Prop where
  finished : b.Finished code
  meets : b.Meets
  settled : b.Settled L
  reachable : b.reachable = true
  pool : b.pool.Extends v.pool
  maxStack : v.maxStack = b.maxStack.toNat
  maxLocals : v.maxLocals = b.maxLocals.toNat
  untrimmed : Frame.trim L.toList = L.toList
  frames : v.frames = (Frame.toStore (b.targetFrames b.address)).map (Frame.resolved v.pool.known)

namespace Verifier.Checks

variable {v : Verifier} {L : Types} {b : Body} {code : MethodCode} (h : v.Checks L b code)
include h

theorem length_finalItems : b.finalItems.length = b.items.size + 1 := by
  rw [Body.length_finalItems, if_pos h.reachable]

theorem label_of_frameAt {p : Nat} {f : TypeFrame SlotType} (hp : p ≤ b.items.size)
    (hf : v.frameAt? (b.address p) = some f) :
    ∃ (i : Nat) (l : Label) (S : Types), b.labels[i]? = some l ∧ l.referenced = true ∧ l.position = some p ∧
      l.stack = some S ∧ f = ⟨b.address p, L.toList.map v.pool.known, S.toList.map v.pool.known⟩ := by
  have hmem := List.mem_of_find?_eq_some hf
  have haddress : f.address = b.address p := by simpa using List.find?_some hf
  rw [h.frames] at hmem
  obtain ⟨g, hg, rfl⟩ := List.mem_map.1 hmem
  obtain ⟨r, hr, rfl⟩ := Frame.mem_toStore hg
  obtain ⟨i, l, q, hl, hreferenced, hq, rfl⟩ := Body.mem_targetFrames.1 hr
  obtain ⟨S, hS⟩ := h.meets.referenced i l hl hreferenced
  have hq' := h.meets.le i l q hl hq
  have hlength := h.length_finalItems
  obtain rfl : q = p := Body.address_inj (by omega) (by omega) haddress
  refine ⟨i, l, S, hl, hreferenced, hq, hS, ?_⟩
  rw [Frame.resolved, (h.settled i l hl).1, h.untrimmed, hS]
  rfl

theorem frameAt_label {i p : Nat} {l : Label} {S : Types} (hl : b.labels[i]? = some l) (hr : l.referenced = true)
    (hp : l.position = some p) (hS : l.stack = some S) :
    v.frameAt? (b.address p) =
      some ⟨b.address p, L.toList.map v.pool.known, S.toList.map v.pool.known⟩ := by
  have hrecord : ⟨b.address p, l.locals.toList, (l.stack.getD #[]).toList⟩ ∈ b.targetFrames b.address :=
    Body.mem_targetFrames.2 ⟨i, l, p, hl, hr, hp, rfl⟩
  obtain ⟨g, hg, haddress⟩ := Frame.exists_toStore hrecord
  cases hf : v.frameAt? (b.address p) with
  | none =>
    have hnone := List.find?_eq_none.1 hf (g.resolved v.pool.known)
      (by rw [h.frames]; exact List.mem_map.2 ⟨g, hg, rfl⟩)
    exact absurd (decide_eq_true haddress) hnone
  | some f =>
    -- Another label may have given the frame, but labels at one place have one operand stack.
    obtain ⟨j, k, T, hk, -, hkp, hT, rfl⟩ := h.label_of_frameAt (h.meets.le i l p hl hp) hf
    have hsame := h.meets.same i j l k p hl hk hp hkp
    rw [hS, hT] at hsame
    cases hsame
    rfl

end Verifier.Checks

/-! ## The walk over the code of typed calls -/

structure Body.Ordered (m : Body) : Prop where
  wellFormed : m.pool.WellFormed
  meets : m.Meets
  named : m.Named
  thrifty : m.Thrifty 0
  deep : m.Deep

theorem Call.Effect.ordered {c : Call} {m m' : Body} (h : c.Effect m m') (typed : c.Typed m) (hm : m.Ordered)
    (hsize : m'.size < 65536) : m'.Ordered where
  wellFormed := (h.continues hm.wellFormed).wellFormed
  meets := h.meets typed hm.meets
  named := h.named hm.named
  thrifty := h.spends.thrifty hm.thrifty
  deep := (Performs.cons h (.nil m')).deep hm.thrifty hm.deep hsize

/-- The verifier comes to the end of the code that there is with the types of the body, or with none if there is a frame
or if control cannot come here. -/
structure Verifier.Arrives (v : Verifier) (m : Body) (current : Option TypeState) : Prop where
  reached : m.reachable = true → current = some (m.typeState v.pool) ∨ current = none ∧
    ∃ (i : Nat) (l : Label), m.labels[i]? = some l ∧ l.referenced = true ∧ l.position = some m.items.size
  unreached : m.reachable = false → current = none

theorem Verifier.Arrives.mark {v : Verifier} {c : Call} {m m' : Body} {current : Option TypeState}
    (h : v.Arrives m current) (effect : c.Effect m m') (typed : c.Typed m) (hmark : c.isMark = true) :
    v.Arrives m' current := by
  have hlabel : m'.items = m.items → (∃ (i : Nat) (l : Label), m.labels[i]? = some l ∧ l.referenced = true ∧
      l.position = some m.items.size) → ∃ (i : Nat) (l : Label), m'.labels[i]? = some l ∧ l.referenced = true ∧
      l.position = some m'.items.size := by
    rintro hitems ⟨i, l, hl, hr, hp⟩
    obtain ⟨l', hl', hbecomes⟩ := effect.label_becomes hl
    exact ⟨i, l', hl', hbecomes.referenced hr, by rw [hitems]; exact hbecomes.position _ hp⟩
  cases c with
  | newLabel =>
    have heffect := effect
    obtain rfl := heffect
    exact ⟨fun hr => (h.reached hr).imp id (And.imp id (hlabel rfl)), h.unreached⟩
  | bind label =>
    have heffect := effect
    obtain ⟨l, hl, -, ⟨hreach, -, rfl⟩ | ⟨hreach, rfl⟩⟩ := heffect
    · exact ⟨fun hr => (h.reached hr).imp id (And.imp id (hlabel rfl)), h.unreached⟩
    · -- Control comes here by branches only, and so the label itself has a frame.
      refine ⟨fun _ => .inr ⟨h.unreached hreach, label, { l with position := some m.items.size }, ?_, ?_, rfl⟩, nofun⟩
      · simp [Array.getElem?_modify, hl]
      · rcases typed with hr | ⟨l', hl', hreferenced⟩
        · rw [hreach] at hr
          cases hr
        · rw [hl] at hl'
          cases hl'
          exact hreferenced
  | _ => cases hmark

namespace Verifier.Checks

variable {v : Verifier} {L : Types} {b m m' : Body} {code : MethodCode} {current : Option TypeState} {c : Call}
  (h : v.Checks L b code)
include h

theorem arrive_eq (arrives : v.Arrives m current) (hreach : m.reachable = true) (meets : m.Meets)
    (settled : m.Settled L) (hitems : m.items.size ≤ b.items.size)
    (hlater : ∀ (i : Nat) (l : Label), m.labels[i]? = some l → ∃ l', b.labels[i]? = some l' ∧ l.Becomes l')
    (hbound : ∀ i, b.position? i = some m.items.size → m.position? i = some m.items.size) :
    v.arrive? (b.address m.items.size) current = some (m.typeState v.pool) := by
  cases hf : v.frameAt? (b.address m.items.size) with
  | none =>
    rw [arrive?_none hf]
    rcases arrives.reached hreach with hcurrent | ⟨-, i, l, hl, hr, hp⟩
    · exact hcurrent
    · -- A label that is bound here has a frame in the end.
      obtain ⟨l', hl', hbecomes⟩ := hlater i l hl
      have hr' := hbecomes.referenced hr
      obtain ⟨S, hS⟩ := h.meets.referenced i l' hl' hr'
      rw [h.frameAt_label hl' hr' (hbecomes.position _ hp) hS] at hf
      cases hf
  | some f =>
    obtain ⟨i, l', S, hl', -, hp', hS, rfl⟩ := h.label_of_frameAt hitems hf
    obtain ⟨l, hl, hp⟩ := Option.bind_eq_some_iff.1
      (hbound i (Option.bind_eq_some_iff.2 ⟨l', hl', hp'⟩))
    obtain ⟨l'', hl'', hbecomes⟩ := hlater i l hl
    rw [hl'] at hl''
    cases hl''
    have hstack := hbecomes.stack _ (meets.here i l hl hp).2
    rw [hS] at hstack
    cases hstack
    have hstate : (⟨b.address m.items.size, L.toList.map v.pool.known, m.stack.toList.map v.pool.known⟩ :
        TypeFrame SlotType).state = m.typeState v.pool := by
      rw [TypeFrame.state, Body.typeState, (settled i l hl).2]
    rw [← hstate]
    refine arrive?_frame hf ?_
    rw [hstate]
    exact (arrives.reached hreach).imp id And.left

theorem instruction_eq (first : c.Effect m m') (hmark : c.isMark = false) {rest : List Call}
    (hrest : Performs rest m' b) (wf : m.pool.WellFormed) :
    ∃ item i, c.Emits v.pool item ∧ m'.items.size = m.items.size + 1 ∧ m'.items.size ≤ b.items.size ∧
      b.Becomes (b.address m.items.size) item i ∧
      b.address m'.items.size = b.address m.items.size + i.size ∧
      code.instructions.drop m.items.size = i :: code.instructions.drop m'.items.size := by
  obtain ⟨hmark', -⟩ | ⟨-, item, hemits, hpush, -⟩ := first.adds
  · rw [hmark] at hmark'
    cases hmark'
  have hwf := (first.continues wf).wellFormed
  obtain ⟨items, -, hitems, -⟩ := hrest.adds hwf
  have hsize : m'.items.size = m.items.size + 1 := by rw [hpush, Array.size_push]
  have hfinal : b.finalItems[m.items.size]? = some item := by
    rw [Body.finalItems, if_pos h.reachable, hitems, hpush]
    simp
  obtain ⟨i, hi, hbecomes⟩ := h.finished.becomes _ item hfinal
  refine ⟨item, i, hemits.mono ((hrest.continues hwf).pool.1.trans h.pool), hsize, ?_, hbecomes, ?_, ?_⟩
  · rw [hitems, Array.size_append]
    exact Nat.le_add_right _ _
  · rw [← h.finished.codeSize_take, ← h.finished.codeSize_take, hsize, codeSize_take_succ hi]
  · obtain ⟨hlt, rfl⟩ := List.getElem?_eq_some_iff.1 hi
    rw [hsize, List.drop_eq_getElem_cons hlt]

theorem branchSuits_eq {label p : Nat} {l : Label} {S : Types} {offset : Int16} {i : Instruction} {s : TypeState}
    {address : Nat} (hi : i.offset? = some offset) (hp : b.position? label = some p)
    (hoffset : offset.toInt = b.address p - address) (hl : b.labels[label]? = some l) (hr : l.referenced = true)
    (hS : l.stack = some S) (hs : s = ⟨L.toList.map v.pool.known, (S.toList.map v.pool.known).reverse⟩) :
    v.branchSuits address s i = true := by
  have hposition : l.position = some p := by
    rw [Body.position?, hl] at hp
    exact hp
  have htarget : (address : Int) + offset.toInt = b.address p := by omega
  have hsuits := TypeFrame.suits_state
    ⟨b.address p, L.toList.map v.pool.known, S.toList.map v.pool.known⟩
  rw [branchSuits, hi]
  simp only [htarget, Int.toNat_natCast, h.frameAt_label hl hr hposition hS, Option.any_some, hs, Bool.and_eq_true]
  exact ⟨decide_eq_true (Int.natCast_nonneg _), hsuits⟩

theorem hasRoom_eq {i : Instruction} {S : Types} {locals : List SlotType} (hm : m.Deep) (hS : m.Knows S)
    (hstack : m.maxStack.toNat ≤ b.maxStack.toNat)
    (hslot : ∀ slot, i.slot? = some slot → slot.toNat < b.maxLocals.toNat) :
    v.hasRoom ⟨locals, (S.toList.map v.pool.known).reverse⟩ i = true := by
  have hdepth : S.size ≤ v.maxStack := by
    rw [h.maxStack]
    exact Nat.le_trans (hm S hS) hstack
  cases hi : i.slot? with
  | none => simp [hasRoom, hi, hdepth]
  | some slot =>
    have hlt := hslot slot hi
    rw [← h.maxLocals] at hlt
    simp [hasRoom, hi, hdepth, hlt]

end Verifier.Checks

theorem Call.Typed.reachable {c : Call} {b : Body} (h : c.Typed b) (hmark : c.isMark = false) : b.reachable = true := by
  cases c with
  | newLabel => cases hmark
  | bind label => cases hmark
  | pushInt value => exact h
  | pushText text => exact h
  | getStatic m => exact h
  | jump label => exact h
  | load slot kind => exact h.1
  | store slot kind => exact h.1
  | arithmetic op => exact h.1
  | branch condition label => exact h.1
  | invokeVirtual m => exact h.1
  | invokeStatic m => exact h.1
  | _ => exact h.elim

theorem Performs.branched {calls : List Call} {b m : Body} {label : Nat} {S locals : Types}
    (h : Performs calls m b) {labels : Array Label} {l : Label} (hl : labels[label]? = some l)
    (hlabels : m.labels = labels.modify label fun l => { l.join S locals with referenced := true }) :
    ∃ l', b.labels[label]? = some l' ∧ l'.referenced = true ∧ l'.stack = some S := by
  have hm : m.labels[label]? = some { l.join S locals with referenced := true } := by
    rw [hlabels, Array.getElem?_modify, if_pos rfl, hl]
    rfl
  obtain ⟨l', hl', hbecomes⟩ := h.label_becomes hm
  exact ⟨l', hl', hbecomes.referenced rfl, hbecomes.stack S rfl⟩

namespace Verifier.Checks

variable {v : Verifier} {L : Types} {b m m' : Body} {code : MethodCode} {current : Option TypeState} {c : Call}
  (h : v.Checks L b code)
include h

theorem walk_item (first : c.Effect m m') (typed : c.Typed m) (hmark : c.isMark = false) (ordered : m.Ordered)
    (settled : m.Settled L) (arrives : v.Arrives m current) {rest : List Call} (hrest : Performs rest m' b)
    (ordered' : m'.Ordered) (hslot : ∀ slot, c.slot? = some slot → slot.toNat < b.maxLocals.toNat)
    (hnext : ∀ next, v.Arrives m' next →
      v.walk (b.address m'.items.size) next (code.instructions.drop m'.items.size) = true) :
    v.walk (b.address m.items.size) current (code.instructions.drop m.items.size) = true := by
  obtain ⟨item, i, hemits, hsize, hle, hbecomes, haddress, hdrop⟩ :=
    h.instruction_eq first hmark hrest ordered.wellFormed
  have hreach := typed.reachable hmark
  have harrive := h.arrive_eq arrives hreach ordered.meets settled (by omega)
    (fun i l hl => (Performs.cons first hrest).label_becomes hl) (by
      intro i hp
      rcases hrest.position_cases hp with hp | hp
      · rcases first.position_cases hp with hp | ⟨rfl, -⟩
        · exact hp
        · cases hmark
      · omega)
  have hpool : m'.pool.Extends v.pool := (hrest.continues ordered'.wellFormed).pool.1.trans h.pool
  rw [haddress] at hnext
  rw [hdrop]
  have hlocals : ∀ (label : Nat) (l : Label), m.labels[label]? = some l → m.locals = L :=
    fun label l hl => (settled label l hl).2
  -- A plain instruction changes the types as its call does; branches and jumps need a frame at their label.
  obtain ⟨j, rfl, hlabel⟩ | ⟨condition, label, rfl, rfl⟩ | ⟨label, rfl, rfl⟩ := hemits.cases
  · cases hbecomes
    obtain ⟨hfalls, hoffset, hslots⟩ := hemits.flow
    refine walk_cons harrive _ (first.after? typed ordered.named hpool hemits) ?_ ?_ ?_
    · exact h.hasRoom_eq ordered'.deep (.inl rfl) hrest.maxStack_le (by rw [hslots]; exact hslot)
    · rw [branchSuits, hoffset]
    · rw [hfalls]
      refine hnext _ ⟨fun _ => .inl rfl, fun hunreached => ?_⟩
      obtain ⟨_, -, hadvances, -⟩ := first.advances hmark hlabel
      rw [hadvances.reachable, hreach] at hunreached
      cases hunreached
  · obtain ⟨-, S, hS⟩ := typed
    obtain ⟨S', popped, l, htwo, hS', hl, -, rfl⟩ := first
    obtain rfl := Body.popTwo_eq hS hS' htwo
    obtain ⟨l', hl', hr, hstack⟩ := hrest.branched hl rfl
    cases hbecomes with
    | branch _ hp hoffset =>
      refine walk_cons harrive ⟨m.locals.toList.map v.pool.known, (S'.toList.map v.pool.known).reverse⟩ ?_ ?_ ?_
        (hnext _ ⟨fun _ => .inl rfl, fun hunreached => ?_⟩)
      · rw [Body.typeState_two hS]
        exact TypeState.pop?_append _ _ _
      · exact h.hasRoom_eq ordered'.deep (.inl rfl) hrest.maxStack_le nofun
      · exact h.branchSuits_eq rfl hp hoffset hl' hr hstack (by rw [hlocals label l hl])
      · have hunreached : m.reachable = false := hunreached
        rw [hreach] at hunreached
        cases hunreached
  · obtain ⟨l, hl, -, rfl⟩ := first
    obtain ⟨l', hl', hr, hstack⟩ := hrest.branched hl rfl
    cases hbecomes with
    | jump hp hoffset =>
      refine walk_cons harrive (m.typeState v.pool) rfl ?_ ?_ (hnext _ ⟨nofun, fun _ => rfl⟩)
      · exact h.hasRoom_eq ordered.deep (.inl rfl) hrest.maxStack_le nofun
      · exact h.branchSuits_eq rfl hp hoffset hl' hr hstack (by rw [Body.typeState, hlocals label l hl])

theorem walk_end (arrives : v.Arrives b current) (deep : b.Deep) :
    v.walk (b.address b.items.size) current (code.instructions.drop b.items.size) = true := by
  have hfinal : b.finalItems[b.items.size]? = some (.plain .returnVoid) := by
    rw [Body.finalItems, if_pos h.reachable]
    simp
  obtain ⟨i, hi, hbecomes⟩ := h.finished.becomes _ _ hfinal
  cases hbecomes
  have hdrop : code.instructions.drop b.items.size = [.returnVoid] := by
    obtain ⟨hlt, hget⟩ := List.getElem?_eq_some_iff.1 hi
    have hlength := h.finished.length
    rw [h.length_finalItems] at hlength
    rw [List.drop_eq_getElem_cons hlt, hget, List.drop_of_length_le (by omega)]
  have harrive := h.arrive_eq arrives h.reachable h.meets h.settled (Nat.le_refl _)
    (fun i l hl => ⟨l, hl, .refl l⟩) fun _ => id
  rw [hdrop]
  refine walk_cons harrive (b.typeState v.pool) rfl ?_ rfl rfl
  exact h.hasRoom_eq deep (.inl rfl) (Nat.le_refl _) (by simp [Instruction.slot?])

end Verifier.Checks

/-- The verifier accepts the code of a run of typed calls. -/
theorem TypedRun.walk_eq {v : Verifier} {L : Types} {calls : List Call} {m b : Body} {code : MethodCode}
    (run : TypedRun L calls m b) (h : v.Checks L b code) (ordered : m.Ordered) (hsize : b.size < 65536)
    (hslots : ∀ c ∈ calls, ∀ slot, c.slot? = some slot → slot.toNat + 1 < 65536) {current : Option TypeState}
    (arrives : v.Arrives m current) :
    v.walk (b.address m.items.size) current (code.instructions.drop m.items.size) = true := by
  -- On the run, from the state in which the verifier arrives: it passes marks and checks the instruction of a call.
  induction run generalizing current with
  | nil _ => exact h.walk_end arrives ordered.deep
  | @cons c calls m m' b settled typed first rest ih =>
    have hrest := rest.performs
    have ordered' := first.ordered typed ordered (Nat.lt_of_le_of_lt hrest.size_le hsize)
    have hnext : ∀ next, v.Arrives m' next →
        v.walk (b.address m'.items.size) next (code.instructions.drop m'.items.size) = true :=
      fun _ harrives => ih h ordered' hsize (fun c hc => hslots c (.tail _ hc)) harrives
    cases hmark : c.isMark with
    | true =>
      have hitems : m'.items = m.items := by
        obtain ⟨-, hitems, -⟩ | ⟨hitem, -⟩ := first.adds
        · exact hitems
        · rw [hmark] at hitem
          cases hitem
      have hwalk := hnext current (arrives.mark first typed hmark)
      rwa [hitems] at hwalk
    | false =>
      exact h.walk_item first typed hmark ordered settled arrives hrest ordered'
        (fun slot hslot => (Performs.cons first hrest).slot_lt (.head _) hslot (hslots c (.head _) slot hslot)) hnext

end KnightCode
