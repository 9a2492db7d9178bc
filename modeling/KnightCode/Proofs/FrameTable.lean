import KnightCode.Jvm.Frame
import KnightCode.Proofs.Words

/-!
# Tables of frames read back

How a virtual machine reads a table of frames: it reads the entries, and works out each frame from the one before it.
Read in this way, a table gives back the frames that were stored in it. The types in the frames may be looked up on the
way, as the names of classes are.
-/

namespace KnightCode

open Bytes

/-! ## Entries -/

namespace VerificationType

def read : Bytes → Option (VerificationType × Bytes)
  | 0 :: rest => some (.top, rest)
  | 1 :: rest => some (.integer, rest)
  | 5 :: rest => some (.null, rest)
  | 6 :: rest => some (.uninitializedThis, rest)
  | 7 :: rest => (readUInt16 rest).map fun (index, rest) => (.object index, rest)
  | 8 :: rest => (readUInt16 rest).map fun (address, rest) => (.uninitialized address, rest)
  | _ => none

theorem read_bytes (t : VerificationType) (rest : Bytes) : read (t.bytes ++ rest) = some (t, rest) := by
  cases t with
  | object index => rw [bytes, List.cons_append, read, readUInt16_ofUInt16, Option.map_some]
  | uninitialized address => rw [bytes, List.cons_append, read, readUInt16_ofUInt16, Option.map_some]
  | _ => rfl

theorem length_bytes_le (t : VerificationType) : t.bytes.length ≤ 3 := by
  cases t <;> simp [bytes]

def readList (bytes : Bytes) : Option (List VerificationType × Bytes) := do
  let (count, bytes) ← readUInt16 bytes
  readMany read count.toNat bytes

theorem readList_bytes {types : List VerificationType} (h : types.length < 65536) (rest : Bytes) :
    readList (ofUInt16 types.length.toUInt16 ++ (types.flatMap bytes ++ rest)) = some (types, rest) := by
  have hcount : types.length = types.length.toUInt16.toNat := (Nat.mod_eq_of_lt h).symm
  rw [readList, readUInt16_ofUInt16]
  exact readMany_flatMap hcount (fun t _ => t.read_bytes) rest

end VerificationType

namespace FrameEntry

def read : Bytes → Option (FrameEntry × Bytes)
  | [] => none
  | tag :: rest =>
    if tag ≤ 63 then some (.same tag.toUInt16, rest)
    else if tag ≤ 127 then do
      let (item, rest) ← VerificationType.read rest
      return (.sameOneItem (tag - 64).toUInt16 item, rest)
    else if tag ≤ 246 then none
    else do
      let (delta, rest) ← readUInt16 rest
      if tag = 247 then do
        let (item, rest) ← VerificationType.read rest
        return (.sameOneItemFar delta item, rest)
      else if tag ≤ 250 then return (.chop (251 - tag).toNat delta, rest)
      else if tag = 251 then return (.sameFar delta, rest)
      else if tag ≤ 254 then do
        let (locals, rest) ← readMany VerificationType.read (tag - 251).toNat rest
        return (.append delta locals, rest)
      else do
        let (locals, rest) ← VerificationType.readList rest
        let (stack, rest) ← VerificationType.readList rest
        return (.full delta locals stack, rest)

/-- The numbers of the entry fit their places. -/
def Stored : FrameEntry → Prop
  | .same delta | .sameOneItem delta _ => delta.toNat ≤ 63
  | .sameOneItemFar .. | .sameFar _ => True
  | .chop count _ => count = 1 ∨ count = 2 ∨ count = 3
  | .append _ locals => locals.length = 1 ∨ locals.length = 2 ∨ locals.length = 3
  | .full _ locals stack => locals.length < 65536 ∧ stack.length < 65536

theorem read_bytes {e : FrameEntry} (h : e.Stored) (rest : Bytes) : read (e.bytes ++ rest) = some (e, rest) := by
  cases e with
  | same delta =>
    have h : delta.toNat ≤ 63 := h
    have hsmall : delta.toUInt8 ≤ 63 := by
      rw [UInt8.le_iff_toNat_le, UInt16.toNat_toUInt8]
      exact Nat.le_trans (Nat.mod_le _ _) h
    have hback : delta.toUInt8.toUInt16 = delta := by
      apply UInt16.toNat_inj.1
      rw [UInt8.toNat_toUInt16, UInt16.toNat_toUInt8]
      omega
    rw [bytes, tag, payload, List.cons_append, read, if_pos hsmall, hback]
    rfl
  | sameOneItem delta item =>
    have h : delta.toNat ≤ 63 := h
    have htag : (64 + delta.toUInt8).toNat = 64 + delta.toNat := by
      rw [UInt8.toNat_add, UInt16.toNat_toUInt8, show (64 : UInt8).toNat = 64 from rfl]
      omega
    have hlarge : ¬64 + delta.toUInt8 ≤ 63 := by
      rw [UInt8.le_iff_toNat_le, htag, show (63 : UInt8).toNat = 63 from rfl]
      omega
    have hsmall : 64 + delta.toUInt8 ≤ 127 := by
      rw [UInt8.le_iff_toNat_le, htag, show (127 : UInt8).toNat = 127 from rfl]
      omega
    have hback : (64 + delta.toUInt8 - 64).toUInt16 = delta := by
      apply UInt16.toNat_inj.1
      rw [UInt8.toNat_toUInt16, UInt8.toNat_sub, htag, show (64 : UInt8).toNat = 64 from rfl]
      omega
    rw [bytes, tag, payload, List.cons_append, read, if_neg hlarge, if_pos hsmall, hback, item.read_bytes]
    rfl
  | sameOneItemFar delta item => simp [bytes, tag, payload, read, item.read_bytes]
  | chop count delta => obtain rfl | rfl | rfl := h <;> simp [bytes, tag, payload, read]
  | sameFar delta => simp [bytes, tag, payload, read]
  | append delta locals =>
    have hlocals : ∀ n, locals.length = n →
        readMany VerificationType.read n (locals.flatMap VerificationType.bytes ++ rest) = some (locals, rest) :=
      fun n hn => readMany_flatMap hn (fun t _ => t.read_bytes) rest
    rw [bytes, tag, payload, List.cons_append, List.append_assoc]
    obtain h | h | h := h <;> rw [h] <;> simp [read, hlocals _ h]
  | full delta locals stack =>
    simp [bytes, tag, payload, read, VerificationType.readList_bytes h.1, VerificationType.readList_bytes h.2]

/-- The forms in which a frame is stored after one with the locals `before`. -/
inductive Stores (before : List VerificationType) (delta : UInt16) (f : Frame) : FrameEntry → Prop
  | same (hstack : f.stack = []) (hlocals : before = f.locals) (hdelta : delta ≤ 63) : Stores before delta f (.same delta)
  | sameFar (hstack : f.stack = []) (hlocals : before = f.locals) : Stores before delta f (.sameFar delta)
  | append {added : List VerificationType} (hstack : f.stack = []) (hlocals : before ++ added = f.locals)
      (hcount : 1 ≤ added.length ∧ added.length ≤ 3) : Stores before delta f (.append delta added)
  | chop {dropped : List VerificationType} (hstack : f.stack = []) (hlocals : f.locals ++ dropped = before)
      (hcount : 1 ≤ dropped.length ∧ dropped.length ≤ 3) : Stores before delta f (.chop dropped.length delta)
  | sameOneItem {item : VerificationType} (hstack : f.stack = [item]) (hlocals : before = f.locals) (hdelta : delta ≤ 63) :
      Stores before delta f (.sameOneItem delta item)
  | sameOneItemFar {item : VerificationType} (hstack : f.stack = [item]) (hlocals : before = f.locals) :
      Stores before delta f (.sameOneItemFar delta item)
  | full : Stores before delta f (.full delta f.locals f.stack)

theorem ofFrame_stores (before : List VerificationType) (delta : UInt16) (f : Frame) :
    Stores before delta f (ofFrame before delta f) := by
  have hfull : Stores before delta f (.full delta f.locals f.stack) := .full
  -- By the operand stack, then by the locals: only with an empty stack may these differ from those before.
  unfold ofFrame
  split
  · next hstack =>
    rw [hstack] at hfull
    split
    · next hlocals =>
      split
      · next hdelta => exact .same hstack hlocals hdelta
      · exact .sameFar hstack hlocals
    · simp only
      split
      · next hmore =>
        simp only [Bool.and_eq_true, decide_eq_true_eq, List.isPrefixOf_iff_prefix] at hmore
        exact .append hstack (List.prefix_iff_eq_append.1 hmore.2) (by rw [List.length_drop]; exact hmore.1)
      · split
        · next hfewer =>
          simp only [Bool.and_eq_true, decide_eq_true_eq, List.isPrefixOf_iff_prefix] at hfewer
          rw [← List.length_drop] at hfewer ⊢
          exact .chop hstack (List.prefix_iff_eq_append.1 hfewer.2) hfewer.1
        · exact hfull
  · next item hstack =>
    rw [hstack] at hfull
    split
    · next hlocals =>
      split
      · next hdelta => exact .sameOneItem hstack hlocals hdelta
      · exact .sameOneItemFar hstack hlocals
    · exact hfull
  · exact hfull

theorem length_types_le (types : List VerificationType) :
    (types.flatMap VerificationType.bytes).length ≤ 3 * types.length := by
  induction types with
  | nil => exact Nat.le_refl _
  | cons t types ih =>
    have := t.length_bytes_le
    rw [List.flatMap_cons, List.length_append, List.length_cons]
    omega

/-- A stored type takes three bytes at most, and what stands around the types takes seven. -/
theorem Stores.length_bytes_le {before : List VerificationType} {delta : UInt16} {f : Frame} {e : FrameEntry}
    (h : Stores before delta f e) : e.bytes.length ≤ 7 + 3 * (f.locals.length + f.stack.length) := by
  cases h with
  | same => simp [bytes, payload]; omega
  | sameFar => simp [bytes, payload]; omega
  | @append added _ hlocals _ =>
    have := length_types_le added
    rw [← hlocals, List.length_append]
    simp only [bytes, payload, List.length_cons, List.length_append, length_ofUInt16]
    omega
  | chop => simp [bytes, payload]; omega
  | @sameOneItem item =>
    have := item.length_bytes_le
    simp only [bytes, payload, List.length_cons]
    omega
  | @sameOneItemFar item =>
    have := item.length_bytes_le
    simp only [bytes, payload, List.length_cons, List.length_append, length_ofUInt16]
    omega
  | full =>
    have := length_types_le f.locals
    have := length_types_le f.stack
    simp only [bytes, payload, List.length_cons, List.length_append, length_ofUInt16]
    omega

end FrameEntry

/-- Reads the entries of a table. All bytes belong to them. -/
def Frame.readEntries? (bytes : Bytes) : Option (List FrameEntry) := do
  let (count, bytes) ← readUInt16 bytes
  let (entries, bytes) ← readMany FrameEntry.read count.toNat bytes
  if bytes = [] then some entries else none

/-! ## Frames -/

structure TypeFrame (α : Type) where
  address : Nat
  locals : List α
  stack : List α
  deriving DecidableEq, Repr

section Decoding

variable {α : Type} (resolve : VerificationType → Option α)

/-- The frame that an entry stands for, after one with the locals `before`. The delta counts from `start`. -/
def FrameEntry.frame? (start : Nat) (before : List α) : FrameEntry → Option (TypeFrame α)
  | .same delta | .sameFar delta => some ⟨start + delta.toNat, before, []⟩
  | .sameOneItem delta item | .sameOneItemFar delta item => do
    return ⟨start + delta.toNat, before, [← resolve item]⟩
  | .chop count delta =>
    if count ≤ before.length then some ⟨start + delta.toNat, before.take (before.length - count), []⟩ else none
  | .append delta locals => do return ⟨start + delta.toNat, before ++ (← locals.mapM resolve), []⟩
  | .full delta locals stack => do
    return ⟨start + delta.toNat, ← locals.mapM resolve, ← stack.mapM resolve⟩

/-- The frames that entries stand for. After the first one, a delta leaves out one byte. -/
def Frame.decode? : Nat → List α → List FrameEntry → Option (List (TypeFrame α))
  | _, _, [] => some []
  | start, before, e :: rest => do
    let frame ← e.frame? resolve start before
    let frames ← decode? (frame.address + 1) frame.locals rest
    return frame :: frames

def Frame.readTable? (entry : List α) (bytes : Bytes) : Option (List (TypeFrame α)) :=
  (Frame.readEntries? bytes).bind (Frame.decode? resolve 0 entry)

end Decoding

namespace Frame

def resolved {α : Type} (known : VerificationType → α) (f : Frame) : TypeFrame α :=
  ⟨f.address, f.locals.map known, f.stack.map known⟩

/-- The entries of frames, the first of which follows one with the locals `before`. -/
def entriesFrom (start : Nat) (before : List VerificationType) : List Frame → List FrameEntry
  | [] => []
  | f :: rest => .ofFrame before (f.address - start).toUInt16 f :: entriesFrom (f.address + 1) f.locals rest

theorem zipWith_ofFrame (start : Nat) (before : List VerificationType) (frames : List Frame) :
    List.zipWith (fun (start, locals) f => FrameEntry.ofFrame locals (f.address - start).toUInt16 f)
      ((start, before) :: frames.map fun f => (f.address + 1, f.locals)) frames = entriesFrom start before frames := by
  induction frames generalizing start before with
  | nil => rfl
  | cons f frames ih => rw [List.map_cons, List.zipWith_cons_cons, ih, entriesFrom]

@[simp] theorem toStore_nil : toStore [] = [] := by simp [toStore, lastPerAddress]

theorem table?_eq (entry : List VerificationType) (records : List Frame) :
    table? entry records = if records = [] then none else some (entriesFrom 0 (trim entry) (toStore records)) := by
  rw [← zipWith_ofFrame]
  cases records <;> rfl

theorem entries_of_table? {entry : List VerificationType} {records : List Frame} {entries : List FrameEntry}
    (h : table? entry records = some entries) : entries = entriesFrom 0 (trim entry) (toStore records) := by
  rw [table?_eq] at h
  split at h
  · cases h
  · exact (Option.some.inj h).symm

section Decoding

variable {α : Type} {resolve : VerificationType → Option α} {known : VerificationType → α}

theorem mapM_eq_map {types : List VerificationType} (h : ∀ t ∈ types, resolve t = some (known t)) :
    types.mapM resolve = some (types.map known) := by
  induction types with
  | nil => rfl
  | cons t types ih =>
    rw [List.mapM_cons, h t (.head _), ih fun u hu => h u (.tail _ hu)]
    rfl

theorem frame?_of_stores {f : Frame} {start : Nat} {before : List VerificationType} {delta : UInt16} {e : FrameEntry}
    (h : e.Stores before delta f) (hdelta : start + delta.toNat = f.address)
    (hlocals : ∀ t ∈ f.locals, resolve t = some (known t)) (hstack : ∀ t ∈ f.stack, resolve t = some (known t)) :
    e.frame? resolve start (before.map known) = some (f.resolved known) := by
  cases h with
  | same hempty hsame => simp [FrameEntry.frame?, resolved, hdelta, hempty, hsame]
  | sameFar hempty hsame => simp [FrameEntry.frame?, resolved, hdelta, hempty, hsame]
  | @append added hempty hadded _ =>
    have hmem : ∀ t ∈ added, resolve t = some (known t) := by
      intro t ht
      exact hlocals t (by rw [← hadded]; exact List.mem_append_right _ ht)
    simp [FrameEntry.frame?, resolved, hdelta, hempty, ← hadded, mapM_eq_map hmem]
  | chop hempty hdropped _ => simp [FrameEntry.frame?, resolved, hdelta, hempty, ← hdropped]
  | @sameOneItem item hitem hsame _ =>
    have hknown := hstack item (by rw [hitem]; exact .head _)
    simp [FrameEntry.frame?, resolved, hdelta, hitem, hsame, hknown]
  | @sameOneItemFar item hitem hsame =>
    have hknown := hstack item (by rw [hitem]; exact .head _)
    simp [FrameEntry.frame?, resolved, hdelta, hitem, hsame, hknown]
  | full => simp [FrameEntry.frame?, mapM_eq_map hlocals, mapM_eq_map hstack, resolved, hdelta]

theorem decode?_entriesFrom {start : Nat} {before : List VerificationType} {frames : List Frame}
    (hascend : frames.Pairwise fun f g => f.address < g.address)
    (hrange : ∀ f ∈ frames, start ≤ f.address ∧ f.address < 65536)
    (hknown : ∀ f ∈ frames, ∀ t ∈ f.locals ++ f.stack, resolve t = some (known t)) :
    decode? resolve start (before.map known) (entriesFrom start before frames) =
      some (frames.map (resolved known)) := by
  -- Every entry is read against the frame before it, so the start and its locals vary.
  induction frames generalizing start before with
  | nil => rfl
  | cons f frames ih =>
    obtain ⟨hfirst, hrest⟩ := List.pairwise_cons.1 hascend
    obtain ⟨hle, hlt⟩ := hrange f (.head _)
    have hdelta : start + (f.address - start).toUInt16.toNat = f.address := by
      rw [show (f.address - start).toUInt16.toNat = (f.address - start) % 65536 from rfl]
      omega
    have hframe : (FrameEntry.ofFrame before (f.address - start).toUInt16 f).frame? resolve start (before.map known) =
        some (f.resolved known) :=
      frame?_of_stores (FrameEntry.ofFrame_stores ..) hdelta (fun t ht => hknown f (.head _) t (List.mem_append_left _ ht))
        (fun t ht => hknown f (.head _) t (List.mem_append_right _ ht))
    have htail : decode? resolve (f.address + 1) (f.locals.map known) (entriesFrom (f.address + 1) f.locals frames) =
        some (frames.map (resolved known)) :=
      ih hrest (fun g hg => ⟨hfirst g hg, (hrange g (.tail _ hg)).2⟩) (fun g hg => hknown g (.tail _ hg))
    rw [entriesFrom, decode?, hframe]
    simp only [bind, Option.bind, resolved] at htail ⊢
    rw [htail]
    rfl

end Decoding

/-! ## The frames that are stored -/

theorem lastPerAddress_cons (f : Frame) (frames : List Frame) :
    lastPerAddress (f :: frames) = lastPerAddress frames ∧ (∃ g ∈ lastPerAddress frames, g.address = f.address) ∨
      lastPerAddress (f :: frames) = f :: lastPerAddress frames ∧
        ∀ g, (lastPerAddress frames).head? = some g → g.address ≠ f.address := by
  have hcons : lastPerAddress (f :: frames) = _ := List.foldr_cons ..
  rw [← lastPerAddress] at hcons
  cases hlast : lastPerAddress frames with
  | nil =>
    rw [hlast] at hcons
    exact .inr ⟨hcons, by simp⟩
  | cons next rest =>
    rw [hlast] at hcons
    simp only at hcons
    split at hcons
    · next heq => exact .inl ⟨hcons, next, .head _, heq.symm⟩
    · next hne =>
      refine .inr ⟨hcons, ?_⟩
      rintro g hg heq
      cases hg
      exact hne heq.symm

theorem lastPerAddress_sublist (frames : List Frame) : (lastPerAddress frames).Sublist frames := by
  induction frames with
  | nil => exact .slnil
  | cons f frames ih =>
    obtain ⟨heq, -⟩ | ⟨heq, -⟩ := lastPerAddress_cons f frames
    · rw [heq]
      exact ih.cons f
    · rw [heq]
      exact ih.cons_cons f

theorem exists_lastPerAddress {f : Frame} {frames : List Frame} (h : f ∈ frames) :
    ∃ g ∈ lastPerAddress frames, g.address = f.address := by
  induction frames with
  | nil => cases h
  | cons f' frames ih =>
    obtain ⟨heq, hkept⟩ | ⟨heq, -⟩ := lastPerAddress_cons f' frames
    · rw [heq]
      rcases List.mem_cons.1 h with rfl | h
      · exact hkept
      · exact ih h
    · rw [heq]
      rcases List.mem_cons.1 h with rfl | h
      · exact ⟨f, .head _, rfl⟩
      · obtain ⟨g, hg, haddress⟩ := ih h
        exact ⟨g, .tail _ hg, haddress⟩

theorem lastPerAddress_ascends {frames : List Frame} (h : frames.Pairwise fun f g => f.address ≤ g.address) :
    (lastPerAddress frames).Pairwise fun f g => f.address < g.address := by
  induction frames with
  | nil => exact .nil
  | cons f frames ih =>
    obtain ⟨hfirst, hrest⟩ := List.pairwise_cons.1 h
    obtain ⟨heq, -⟩ | ⟨heq, hother⟩ := lastPerAddress_cons f frames
    · rw [heq]
      exact ih hrest
    · rw [heq]
      refine List.pairwise_cons.2 ⟨?_, ih hrest⟩
      -- The first of the kept frames has another address, and the others come after it.
      have hmem : ∀ g ∈ lastPerAddress frames, f.address ≤ g.address :=
        fun g hg => hfirst g ((lastPerAddress_sublist frames).subset hg)
      have hsorted := ih hrest
      cases hlast : lastPerAddress frames with
      | nil => exact nofun
      | cons next rest =>
        rw [hlast] at hmem hother hsorted
        have hnext : f.address < next.address :=
          Nat.lt_of_le_of_ne (hmem next (.head _)) (hother next rfl).symm
        intro g hg
        rcases List.mem_cons.1 hg with rfl | hg
        · exact hnext
        · exact Nat.lt_trans hnext ((List.pairwise_cons.1 hsorted).1 g hg)

theorem pairwise_mergeSort_address (records : List Frame) :
    (records.mergeSort fun a b => a.address ≤ b.address).Pairwise fun f g => f.address ≤ g.address := by
  have hsorted : (records.mergeSort fun a b => decide (a.address ≤ b.address)).Pairwise
      fun a b => decide (a.address ≤ b.address) = true :=
    List.pairwise_mergeSort (fun a b c hab hbc => by simp only [decide_eq_true_eq] at *; omega)
      (fun a b => by simp only [Bool.or_eq_true, decide_eq_true_eq]; omega) records
  exact hsorted.imp of_decide_eq_true

theorem toStore_ascends (records : List Frame) :
    (toStore records).Pairwise fun f g => f.address < g.address :=
  lastPerAddress_ascends (pairwise_mergeSort_address _)

theorem mem_toStore {f : Frame} {records : List Frame} (h : f ∈ toStore records) :
    ∃ r ∈ records, f = { r with locals := trim r.locals } := by
  have hmem := (lastPerAddress_sublist _).subset h
  rw [List.mem_mergeSort] at hmem
  obtain ⟨r, hr, rfl⟩ := List.mem_map.1 hmem
  exact ⟨r, hr, rfl⟩

theorem exists_toStore {r : Frame} {records : List Frame} (h : r ∈ records) :
    ∃ f ∈ toStore records, f.address = r.address :=
  exists_lastPerAddress (f := { r with locals := trim r.locals })
    (List.mem_mergeSort.2 (List.mem_map.2 ⟨r, h, rfl⟩))

theorem length_toStore_le (records : List Frame) : (toStore records).length ≤ records.length := by
  have hle := (lastPerAddress_sublist ((records.map fun r => { r with locals := trim r.locals }).mergeSort
    fun a b => a.address ≤ b.address)).length_le
  rwa [List.length_mergeSort, List.length_map] at hle

theorem trim_sublist (locals : List VerificationType) : (trim locals).Sublist locals := by
  have h := List.reverse_sublist.2 (List.dropWhile_sublist (l := locals.reverse) (· = .top))
  rwa [List.reverse_reverse] at h

structure Fits (f : Frame) : Prop where
  address : f.address < 65536
  locals : f.locals.length < 65536
  stack : f.stack.length < 65536

theorem Fits.stored {f : Frame} (h : f.Fits) {before : List VerificationType} {delta : UInt16} {e : FrameEntry}
    (hstores : e.Stores before delta f) : e.Stored := by
  cases hstores with
  | same _ _ hdelta => exact hdelta
  | sameFar => trivial
  | append _ _ hcount =>
    simp only [FrameEntry.Stored]
    omega
  | chop _ _ hcount =>
    simp only [FrameEntry.Stored]
    omega
  | sameOneItem _ _ hdelta => exact hdelta
  | sameOneItemFar => trivial
  | full => exact ⟨h.locals, h.stack⟩

theorem stored_entriesFrom {frames : List Frame} (h : ∀ f ∈ frames, f.Fits) (start : Nat)
    (before : List VerificationType) : ∀ e ∈ entriesFrom start before frames, e.Stored := by
  induction frames generalizing start before with
  | nil => exact nofun
  | cons f frames ih =>
    intro e he
    rcases List.mem_cons.1 he with rfl | he
    · exact (h f (.head _)).stored (FrameEntry.ofFrame_stores ..)
    · exact ih (fun g hg => h g (.tail _ hg)) _ _ e he

theorem length_entriesFrom (start : Nat) (before : List VerificationType) (frames : List Frame) :
    (entriesFrom start before frames).length = frames.length := by
  induction frames generalizing start before with
  | nil => rfl
  | cons f frames ih => rw [entriesFrom, List.length_cons, ih, List.length_cons]

theorem length_bytes_entriesFrom_le {width : Nat} {frames : List Frame}
    (h : ∀ f ∈ frames, f.locals.length + f.stack.length ≤ width) (start : Nat) (before : List VerificationType) :
    ((entriesFrom start before frames).flatMap FrameEntry.bytes).length ≤ frames.length * (7 + 3 * width) := by
  induction frames generalizing start before with
  | nil => exact Nat.zero_le _
  | cons f frames ih =>
    have hentry := (FrameEntry.ofFrame_stores before (f.address - start).toUInt16 f).length_bytes_le
    have hf := h f (.head _)
    have htail := ih (fun g hg => h g (.tail _ hg)) (f.address + 1) f.locals
    rw [entriesFrom, List.flatMap_cons, List.length_append, List.length_cons, Nat.add_mul, Nat.one_mul]
    omega

theorem Fits.trim {r : Frame} (h : r.Fits) : Fits { r with locals := Frame.trim r.locals } :=
  ⟨h.address, Nat.lt_of_le_of_lt (trim_sublist r.locals).length_le h.locals, h.stack⟩

section Reading

variable {entry : List VerificationType} {records : List Frame} {entries : List FrameEntry}
  (h : table? entry records = some entries)
include h

theorem readEntries?_of_count (hcount : (toStore records).length < 65536) (hfits : ∀ r ∈ records, r.Fits) :
    readEntries? (tableBytes entries) = some entries := by
  have hentries := entries_of_table? h
  have hstored : ∀ f ∈ toStore records, f.Fits := by
    intro f hf
    obtain ⟨r, hr, rfl⟩ := mem_toStore hf
    exact (hfits r hr).trim
  have hlength : entries.length = entries.length.toUInt16.toNat := by
    rw [hentries, length_entriesFrom]
    exact (Nat.mod_eq_of_lt hcount).symm
  have hread := readMany_flatMap hlength
    (fun e he => FrameEntry.read_bytes (stored_entriesFrom hstored 0 (trim entry) e (hentries ▸ he))) []
  rw [List.append_nil] at hread
  rw [readEntries?, tableBytes, readUInt16_ofUInt16]
  simp only [bind, Option.bind, hread, if_true]

theorem readEntries?_tableBytes (hcount : records.length < 65536) (hfits : ∀ r ∈ records, r.Fits) :
    readEntries? (tableBytes entries) = some entries :=
  readEntries?_of_count h (Nat.lt_of_le_of_lt (length_toStore_le records) hcount) hfits

theorem decode?_table {α : Type} {resolve : VerificationType → Option α} {known : VerificationType → α}
    (hfits : ∀ r ∈ records, r.Fits)
    (hknown : ∀ r ∈ records, ∀ t ∈ r.locals ++ r.stack, resolve t = some (known t)) :
    decode? resolve 0 ((trim entry).map known) entries = some ((toStore records).map (resolved known)) := by
  rw [entries_of_table? h]
  refine decode?_entriesFrom (toStore_ascends records) ?_ ?_
  · intro f hf
    obtain ⟨r, hr, rfl⟩ := mem_toStore hf
    exact ⟨Nat.zero_le _, (hfits r hr).address⟩
  · intro f hf t ht
    obtain ⟨r, hr, rfl⟩ := mem_toStore hf
    refine hknown r hr t ?_
    rcases List.mem_append.1 ht with ht | ht
    · exact List.mem_append_left _ ((trim_sublist r.locals).subset ht)
    · exact List.mem_append_right _ ht

theorem readTable?_tableBytes {α : Type} {resolve : VerificationType → Option α} {known : VerificationType → α}
    (hcount : records.length < 65536) (hfits : ∀ r ∈ records, r.Fits)
    (hknown : ∀ r ∈ records, ∀ t ∈ r.locals ++ r.stack, resolve t = some (known t)) :
    readTable? resolve ((trim entry).map known) (tableBytes entries) =
      some ((toStore records).map (resolved known)) := by
  rw [readTable?, readEntries?_tableBytes h hcount hfits, Option.bind_some, decode?_table h hfits hknown]

theorem length_tableBytes_le {width : Nat}
    (hwidth : ∀ r ∈ records, r.locals.length + r.stack.length ≤ width) :
    (tableBytes entries).length ≤ 2 + records.length * (7 + 3 * width) := by
  have hstored : ∀ f ∈ toStore records, f.locals.length + f.stack.length ≤ width := by
    intro f hf
    obtain ⟨r, hr, rfl⟩ := mem_toStore hf
    exact Nat.le_trans (Nat.add_le_add_right (trim_sublist r.locals).length_le _) (hwidth r hr)
  rw [tableBytes, List.length_append, length_ofUInt16, entries_of_table? h]
  exact Nat.add_le_add_left (Nat.le_trans (length_bytes_entriesFrom_le hstored _ _)
    (Nat.mul_le_mul_right _ (length_toStore_le records))) _

end Reading

end Frame

end KnightCode
