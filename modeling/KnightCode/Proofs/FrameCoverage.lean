import KnightCode.Proofs.Edges
import KnightCode.Proofs.FrameRecords
import KnightCode.Proofs.StackDepth

/-!
# Which ways the frames cover

A frame covers a way to its address if the operand stack is the same and each local variable has the type of the frame,
where the frame gives one. Several labels may be bound at one address, and the table has one frame there: that of the
label which was made last. It covers all ways to this label. The ways to the other labels there may go uncovered.
-/

namespace KnightCode

structure TypeFrame.Covers (f : TypeFrame VerificationType) (e : Edge) : Prop where
  stack : f.stack = e.stack.toList
  locals : ∀ (k : Nat) (t : VerificationType), f.locals[k]? = some t → t = .top ∨ e.locals[k]? = some t

namespace Frame

theorem WithoutTop.getElem?_iff {locals stored : List VerificationType} (h : WithoutTop locals stored) {k : Nat}
    {t : VerificationType} (ht : t ≠ .top) : stored[k]? = some t ↔ locals[k]? = some t := by
  obtain ⟨⟨n, rfl⟩, -⟩ := h
  rcases Nat.lt_or_ge k stored.length with hk | hk
  · rw [List.getElem?_append_left hk]
  · rw [List.getElem?_append_right hk, List.getElem?_eq_none hk]
    simp [List.getElem?_replicate, ht.symm]

theorem lastAt?_filterMap {α : Type} {record : α → Option Frame} {list : List α} {address : Nat} {r : Frame}
    (h : lastAt? (list.filterMap record) address = some r) :
    ∃ (i : Nat) (a : α), list[i]? = some a ∧ record a = some r ∧
      ∀ (j : Nat) (a' : α) (r' : Frame), list[j]? = some a' → record a' = some r' → r'.address = address → j ≤ i := by
  induction list with
  | nil => simp [lastAt?] at h
  | cons a list ih =>
    -- What the rest gives counts one place further from the front.
    have hlater : lastAt? (list.filterMap record) address = some r → ∃ (i : Nat) (a' : α),
        (a :: list)[i]? = some a' ∧ record a' = some r ∧ ∀ (j : Nat) (a' : α) (r' : Frame),
          (a :: list)[j]? = some a' → record a' = some r' → r'.address = address → j ≤ i := by
      intro hlast
      obtain ⟨i, a', ha', hrecord, hmax⟩ := ih hlast
      refine ⟨i + 1, a', ha', hrecord, ?_⟩
      intro j x r' hx hr' haddress
      cases j with
      | zero => exact Nat.zero_le _
      | succ j => exact Nat.succ_le_succ (hmax j x r' hx hr' haddress)
    cases hfirst : record a with
    | none =>
      rw [List.filterMap_cons_none hfirst] at h
      exact hlater h
    | some f =>
      rw [List.filterMap_cons_some hfirst, lastAt?_cons] at h
      cases hlast : lastAt? (list.filterMap record) address with
      | some r' =>
        rw [hlast, Option.some_or] at h
        exact hlater (hlast.trans h)
      | none =>
        rw [hlast, Option.none_or] at h
        split at h
        · cases h
          refine ⟨0, a, rfl, hfirst, ?_⟩
          intro j x r' hx hr' haddress
          cases j with
          | zero => exact Nat.le_refl 0
          | succ j =>
            rw [List.getElem?_cons_succ] at hx
            have hmem := List.mem_filterMap.2 ⟨x, List.mem_of_getElem? hx, hr'⟩
            exact absurd haddress (lastAt?_eq_none.1 hlast r' hmem)
        · cases h

theorem getD_table? (entry : List VerificationType) (records : List Frame) :
    (table? entry records).getD [] = entriesFrom 0 (trim entry) (toStore records) := by
  rw [table?_eq]
  split
  · next h => rw [h, toStore_nil]; rfl
  · rfl

end Frame

namespace Body

/-- Some branch goes to the label, which is bound at this address of the finished code. -/
def LandsAt (b : Body) (code : MethodCode) (label address : Nat) : Prop :=
  b.Targets label ∧ ∃ p, b.position? label = some p ∧ (assemble (code.instructions.take p)).length = address

variable {b : Body} {code : MethodCode}

theorem Finished.landsAt_iff (h : b.Finished code) (hcoherent : b.Coherent) {label address : Nat} :
    b.LandsAt code label address ↔
      ∃ (l : Label) (p : Nat), b.labels[label]? = some l ∧ l.referenced = true ∧ l.position = some p ∧
        b.address p = address := by
  unfold LandsAt
  simp only [← hcoherent.referenced, position?, length_assemble, h.codeSize_take]
  cases b.labels[label]? with
  | none => simp
  | some l => simp

theorem lastAt?_targetFrames {addressOf : Nat → Nat} {address : Nat} {r : Frame}
    (h : Frame.lastAt? (b.targetFrames addressOf) address = some r) :
    ∃ (i : Nat) (l : Label) (p : Nat), b.labels[i]? = some l ∧ l.referenced = true ∧ l.position = some p ∧
      addressOf p = address ∧ r.locals = l.locals.toList ∧ r.stack = (l.stack.getD #[]).toList ∧
      ∀ (j : Nat) (l' : Label) (p' : Nat), b.labels[j]? = some l' → l'.referenced = true → l'.position = some p' →
        addressOf p' = address → j ≤ i := by
  have haddress := (Frame.mem_of_lastAt? h).2
  obtain ⟨i, l, hl, hrecord, hmax⟩ := Frame.lastAt?_filterMap h
  rw [Array.getElem?_toList] at hl
  split at hrecord
  · next hreferenced =>
    obtain ⟨p, hp, rfl⟩ := Option.map_eq_some_iff.1 hrecord
    refine ⟨i, l, p, hl, hreferenced, hp, haddress, rfl, rfl, ?_⟩
    intro j l' p' hl' hreferenced' hp' haddress'
    exact hmax j l' _ (by rw [Array.getElem?_toList, hl']) (by rw [if_pos hreferenced', hp']; rfl) haddress'
  · cases hrecord

theorem Finished.decode?_frames (h : b.Finished code) (hcoherent : b.Coherent) (hwants : b.wantsFrames = true) :
    Frame.decode? some 0 (Frame.trim b.entryLocals.toList) (code.frames.getD []) =
      some ((Frame.toStore (b.targetFrames b.address)).map (Frame.resolved id)) := by
  -- The code is short, so no delta between two addresses is cut off when it is stored.
  have hshort : ∀ p, b.address p < 65536 := by
    intro p
    have hle := codeSize_take_le code.instructions p
    rw [h.codeSize_take, h.codeSize_eq hcoherent.size] at hle
    have := h.size_le
    omega
  have hrange : ∀ f ∈ Frame.toStore (b.targetFrames b.address), 0 ≤ f.address ∧ f.address < 65536 := by
    intro f hf
    obtain ⟨r, hlast, -⟩ := Frame.mem_toStore_iff.1 hf
    obtain ⟨-, -, p, -, -, -, haddress, -⟩ := lastAt?_targetFrames hlast
    exact ⟨Nat.zero_le _, haddress ▸ hshort p⟩
  have hdecoded : Frame.decode? some 0 ((Frame.trim b.entryLocals.toList).map id)
      (Frame.entriesFrom 0 (Frame.trim b.entryLocals.toList) (Frame.toStore (b.targetFrames b.address))) =
      some ((Frame.toStore (b.targetFrames b.address)).map (Frame.resolved id)) :=
    Frame.decode?_entriesFrom (Frame.toStore_ascends _) hrange fun _ _ _ _ => rfl
  rw [List.map_id] at hdecoded
  rw [h.frames, if_pos hwants, Frame.getD_table?]
  exact hdecoded

theorem covers_of_sums {f : TypeFrame VerificationType} {l : Label} {origin : Types} {ways : List Edge}
    (hsums : l.Sums origin ways) (hlocals : Frame.WithoutTop l.locals.toList f.locals)
    (hstack : f.stack = (l.stack.getD #[]).toList) :
    (∀ e ∈ ways, f.Covers e) ∧
      ∀ (k : Nat) (t : VerificationType), t ≠ .top →
        (f.locals[k]? = some t ↔ origin[k]? = some t ∧ ∀ e ∈ ways, e.locals[k]? = some t) := by
  -- A type that is not `top` is in the frame if it is in the merge, which is the agreement of all ways.
  have hexact : ∀ (k : Nat) (t : VerificationType), t ≠ .top →
      (f.locals[k]? = some t ↔ origin[k]? = some t ∧ ∀ e ∈ ways, e.locals[k]? = some t) := by
    intro k t ht
    rw [hlocals.getElem?_iff ht, Array.getElem?_toList, hsums.locals, Edge.getElem?_common ht]
  refine ⟨fun e he => ⟨?_, ?_⟩, hexact⟩
  · rw [hstack, hsums.stack e he]
    rfl
  · intro k t hk
    by_cases ht : t = .top
    · exact .inl ht
    · exact .inr (((hexact k t ht).1 hk).2 e he)

theorem setting_start {pool : ConstantPool} {thisClass : UInt16} {entryLocals : List VerificationType}
    {calls : List Call} (hrun : Call.performAll calls (Body.start pool thisClass entryLocals true) = .ok () b) :
    b.wantsFrames = true ∧ b.entryLocals.toList = entryLocals := by
  have hsetting := setting_of_performAll hrun
  unfold setting Body.start at hsetting
  obtain ⟨hentry, hwants⟩ := Prod.mk.inj hsetting
  exact ⟨hwants, by rw [hentry]⟩

/-- There is a frame wherever a branch lands, and nowhere else. It covers the ways to the label made last of those that
branches go to there, and it gives each type on which the origin of this label and all the ways to it agree. -/
theorem frames_cover_ways_to_last_label (pool : ConstantPool) (thisClass : UInt16)
    (entryLocals : List VerificationType) (calls : List Call) {b : Body} {code : MethodCode}
    (hrun : Call.performAll calls (Body.start pool thisClass entryLocals true) = .ok () b)
    (hfinish : b.finish = .ok code) :
    ∃ frames : List (TypeFrame VerificationType),
      Frame.decode? some 0 (Frame.trim entryLocals) (code.frames.getD []) = some frames ∧
      (∀ label address, b.LandsAt code label address → ∃ f ∈ frames, f.address = address) ∧
      ∀ f ∈ frames, ∃ (label : Nat) (origin : Types), b.LandsAt code label f.address ∧
        (∀ other, b.LandsAt code other f.address → other ≤ label) ∧
        ((Body.start pool thisClass entryLocals true).origins calls)[label]? = some origin ∧
        (∀ e ∈ (Body.start pool thisClass entryLocals true).edges calls, e.label = label → f.Covers e) ∧
        ∀ (k : Nat) (t : VerificationType), t ≠ .top → (f.locals[k]? = some t ↔ origin[k]? = some t ∧
          ∀ e ∈ (Body.start pool thisClass entryLocals true).edges calls, e.label = label → e.locals[k]? = some t) := by
  have hcoherent := coherent_of_performAll hrun
  have hfinished := finish_eq_ok hcoherent.size hfinish
  obtain ⟨hwants, hentry⟩ := setting_start hrun
  have hdecoded := hfinished.decode?_frames hcoherent hwants
  rw [hentry] at hdecoded
  refine ⟨_, hdecoded, ?_, ?_⟩
  · intro label address hlands
    obtain ⟨l, p, hl, hreferenced, hp, rfl⟩ := (hfinished.landsAt_iff hcoherent).1 hlands
    have hmem : ⟨b.address p, l.locals.toList, (l.stack.getD #[]).toList⟩ ∈ b.targetFrames b.address :=
      List.mem_filterMap.2 ⟨l, Array.mem_toList_iff.2 (Array.mem_of_getElem? hl), by rw [if_pos hreferenced, hp]; rfl⟩
    obtain ⟨f, hf, haddress⟩ := Frame.exists_toStore hmem
    exact ⟨f.resolved id, List.mem_map_of_mem hf, haddress⟩
  · intro f hf
    obtain ⟨r, hlast, hlocals, hstack⟩ := Frame.mem_resolved_toStore.1 hf
    obtain ⟨label, l, p, hl, hreferenced, hp, haddress, hlocals', hstack', hmax⟩ := lastAt?_targetFrames hlast
    obtain ⟨origin, horigin, hsums⟩ := (informed_of_performAll hrun).label label l hl
    obtain ⟨hcovers, hexact⟩ := covers_of_sums hsums (hlocals' ▸ hlocals) (hstack.trans hstack')
    have hlands := (hfinished.landsAt_iff hcoherent).2 ⟨l, p, hl, hreferenced, hp, haddress⟩
    refine ⟨label, origin, hlands, ?_, horigin, ?_, ?_⟩
    · intro other hother
      obtain ⟨l', p', hl', hreferenced', hp', haddress'⟩ := (hfinished.landsAt_iff hcoherent).1 hother
      exact hmax other l' p' hl' hreferenced' hp' haddress'
    · simpa [List.mem_filter] using hcovers
    · simpa [List.mem_filter] using hexact

/-- Two labels are bound at one address, and the one made last is bound first. -/
def crossed : List Call := detour ++ [Call.newLabel, .pushInt 1, .pushInt 2, .branch .eq 1, .bind 1, .bind 0]

theorem crossed_finishes :
    ∃ (b : Body) (code : MethodCode), Call.performAll crossed (Body.start .empty 0 [.integer] true) = .ok () b ∧
      b.finish = .ok code ∧ b.labels.size = 2 ∧ b.LandsAt code 0 13 ∧ b.LandsAt code 1 13 := by
  obtain ⟨b, hrun⟩ : ∃ b : Body, Call.performAll crossed (Body.start .empty 0 [.integer] true) = .ok () b :=
    exists_ok_of_run' (by decide +kernel)
  have hb := attempt_of_performAll hrun
  have hsome : b.finish.toOption.isSome = true := by
    rw [← hb]
    decide +kernel
  obtain ⟨code, hcode⟩ := Option.isSome_iff_exists.1 hsome
  have hfinish := eq_ok_of_toOption hcode
  have hcoherent := coherent_of_performAll hrun
  have hlabels : b.labels.map (fun l => (l.referenced, l.position)) = #[(true, some 8), (true, some 8)] := by
    rw [← hb]
    decide +kernel
  have haddress : b.address 8 = 13 := by
    rw [← hb]
    decide +kernel
  have hlands : ∀ i, i < 2 → b.LandsAt code i 13 := by
    intro i hi
    have hget : (b.labels.map fun l => (l.referenced, l.position))[i]? = some (true, some 8) := by
      rw [hlabels]
      obtain rfl | rfl : i = 0 ∨ i = 1 := by omega
      · rfl
      · rfl
    rw [Array.getElem?_map] at hget
    obtain ⟨l, hl, heq⟩ := Option.map_eq_some_iff.1 hget
    obtain ⟨hreferenced, hp⟩ := Prod.mk.inj heq
    exact ((finish_eq_ok hcoherent.size hfinish).landsAt_iff hcoherent).2 ⟨l, 8, hl, hreferenced, hp, haddress⟩
  refine ⟨b, code, hrun, hfinish, ?_, hlands 0 (by omega), hlands 1 (by omega)⟩
  rw [← Array.size_map (f := fun l : Label => (l.referenced, l.position)), hlabels]
  rfl

theorem frames_cover_ways_to_last_label_crossed :
    ∃ (b : Body) (code : MethodCode) (frames : List (TypeFrame VerificationType)) (f : TypeFrame VerificationType),
      Call.performAll crossed (Body.start .empty 0 [.integer] true) = .ok () b ∧
      b.finish = .ok code ∧ Frame.decode? some 0 [.integer] (code.frames.getD []) = some frames ∧ f ∈ frames ∧
      f.address = 13 ∧ ∀ e ∈ (Body.start .empty 0 [.integer] true).edges crossed, e.label = 1 → f.Covers e := by
  obtain ⟨b, code, hrun, hfinish, hsize, -, hlands⟩ := crossed_finishes
  obtain ⟨frames, hdecoded, hwhere, hall⟩ :=
    frames_cover_ways_to_last_label .empty 0 [.integer] crossed hrun hfinish
  obtain ⟨f, hf, haddress⟩ := hwhere 1 13 hlands
  obtain ⟨label, -, hlabel, hmax, -, hcovers, -⟩ := hall f hf
  have hcoherent := coherent_of_performAll hrun
  have hlast : label = 1 := by
    obtain ⟨l, -, hl, -⟩ := ((finish_eq_ok hcoherent.size hfinish).landsAt_iff hcoherent).1 hlabel
    have hlt := (Array.getElem?_eq_some_iff.1 hl).1
    have hle := hmax 1 (haddress ▸ hlands)
    omega
  exact ⟨b, code, frames, f, hrun, hfinish, hdecoded, hf, haddress, hlast ▸ hcovers⟩

/-- The branch to the label made first arrives with a number where the frame says that there is an object. -/
theorem frame_misses_way_to_first_label :
    ∃ (b : Body) (code : MethodCode) (frames : List (TypeFrame VerificationType)) (f : TypeFrame VerificationType)
      (e : Edge), Call.performAll crossed (Body.start .empty 0 [.integer] true) = .ok () b ∧
      b.finish = .ok code ∧ Frame.decode? some 0 [.integer] (code.frames.getD []) = some frames ∧ f ∈ frames ∧
      e ∈ (Body.start .empty 0 [.integer] true).edges crossed ∧ b.LandsAt code e.label f.address ∧ ¬f.Covers e := by
  obtain ⟨b, code, hrun, hfinish, -, hlands, -⟩ := crossed_finishes
  have hcoherent := coherent_of_performAll hrun
  obtain ⟨hwants, hentry⟩ := setting_start hrun
  have hdecoded := (finish_eq_ok hcoherent.size hfinish).decode?_frames hcoherent hwants
  rw [hentry] at hdecoded
  have hlast : Frame.lastAt? (b.targetFrames b.address) 13 = some ⟨13, [.object 4], []⟩ := by
    rw [← attempt_of_performAll hrun]
    decide +kernel
  have hedge : ⟨0, #[], #[.integer]⟩ ∈ (Body.start .empty 0 [.integer] true).edges crossed := by decide +kernel
  refine ⟨b, code, _, ⟨13, [.object 4], []⟩, ⟨0, #[], #[.integer]⟩, hrun, hfinish, hdecoded, ?_, hedge, hlands, ?_⟩
  · exact Frame.mem_resolved_toStore.2 ⟨_, hlast, ⟨⟨0, rfl⟩, by decide⟩, rfl⟩
  · intro hcovers
    rcases hcovers.locals 0 (.object 4) rfl with h | h
    · cases h
    · cases h

end Body

end KnightCode
