import KnightCode.Proofs.Calls
import KnightCode.Proofs.CodeArray

/-!
# Runs of calls

Calls that all succeed take one body to another. Whatever the calls are, the constant pool only grows, each call adds
its own instruction or none, and a label that has been bound stays where it is.
-/

namespace KnightCode

/-- Calls that all succeed take the first body to the second. -/
inductive Performs : List Call → Body → Body → Prop
  | nil (b : Body) : Performs [] b b
  | cons {c : Call} {calls : List Call} {b m b' : Body} (first : c.Effect b m) (rest : Performs calls m b') :
      Performs (c :: calls) b b'

@[simp] theorem performs_nil {b b' : Body} : Performs [] b b' ↔ b' = b := by
  constructor
  · intro h
    cases h
    rfl
  · rintro rfl
    exact .nil b'

@[simp] theorem performs_cons {c : Call} {calls : List Call} {b b' : Body} :
    Performs (c :: calls) b b' ↔ ∃ m, c.Effect b m ∧ Performs calls m b' := by
  constructor
  · intro h
    cases h with
    | cons first rest => exact ⟨_, first, rest⟩
  · rintro ⟨m, first, rest⟩
    exact .cons first rest

theorem performs_append {first second : List Call} {b b' : Body} :
    Performs (first ++ second) b b' ↔ ∃ m, Performs first b m ∧ Performs second m b' := by
  induction first generalizing b with
  | nil => simp
  | cons c first ih =>
    rw [List.cons_append, performs_cons]
    constructor
    · rintro ⟨m, hc, hrest⟩
      obtain ⟨m', hfirst, hsecond⟩ := ih.1 hrest
      exact ⟨m', .cons hc hfirst, hsecond⟩
    · rintro ⟨m', hall, hsecond⟩
      obtain ⟨m, hc, hfirst⟩ := performs_cons.1 hall
      exact ⟨m, hc, ih.2 ⟨m', hfirst, hsecond⟩⟩

section

variable {c : Call} {calls first second : List Call} {b b' : Body}

@[simp] theorem performAll_nil_eq_ok : Call.performAll [] b = .ok () b' ↔ b = b' := by
  constructor
  · rintro ⟨⟩
    rfl
  · rintro rfl
    rfl

@[simp] theorem performAll_cons_eq_ok :
    Call.performAll (c :: calls) b = .ok () b' ↔ ∃ m, c.perform b = .ok () m ∧ Call.performAll calls m = .ok () b' := by
  constructor
  · intro h
    obtain ⟨_, m, hc, hrest⟩ := bind_eq_ok.1 h
    exact ⟨m, hc, hrest⟩
  · rintro ⟨m, hc, hrest⟩
    exact bind_eq_ok.2 ⟨(), m, hc, hrest⟩

@[simp] theorem performAll_append_eq_ok :
    Call.performAll (first ++ second) b = .ok () b' ↔
      ∃ m, Call.performAll first b = .ok () m ∧ Call.performAll second m = .ok () b' := by
  rw [Call.performAll_append]
  constructor
  · intro h
    obtain ⟨_, m, hfirst, hsecond⟩ := bind_eq_ok.1 h
    exact ⟨m, hfirst, hsecond⟩
  · rintro ⟨m, hfirst, hsecond⟩
    exact bind_eq_ok.2 ⟨(), m, hfirst, hsecond⟩

end

/-! ## What one call keeps -/

/-- The parts of a body that calls never change, and the pool, which they extend. -/
structure Body.Continues (b b' : Body) : Prop where
  pool : b.pool.GrowsTo b'.pool
  thisClass : b'.thisClass = b.thisClass
  entryLocals : b'.entryLocals = b.entryLocals
  wantsFrames : b'.wantsFrames = b.wantsFrames

theorem Body.Continues.refl {b : Body} (wf : b.pool.WellFormed) : b.Continues b := ⟨.refl wf, rfl, rfl, rfl⟩

theorem Body.Continues.trans {a b c : Body} (hab : a.Continues b) (hbc : b.Continues c) : a.Continues c :=
  ⟨hab.pool.trans hbc.pool, hbc.thisClass.trans hab.thisClass, hbc.entryLocals.trans hab.entryLocals,
    hbc.wantsFrames.trans hab.wantsFrames⟩

theorem Body.Continues.wellFormed {b b' : Body} (h : b.Continues b') : b'.pool.WellFormed := h.pool.2

/-! ## What one call can do

A call that is about no label does the same to all bodies, whatever its instruction is: `Call.Effect.advances` says it
once for all of them. Proofs about calls use it and look at the effects of the four others only.
-/

namespace Call

def isMark : Call → Bool
  | .newLabel | .bind _ => true
  | _ => false

def label? : Call → Option Nat
  | .branch _ label | .jump label | .bind label => some label
  | _ => none

/-- The instruction that the call adds. -/
def Emits (pool : ConstantPool) : Call → Item → Prop
  | .pushInt value, item => ∃ i, item = .plain i ∧ i.LoadsInt pool value
  | .pushText text, item => ∃ i, item = .plain i ∧ i.LoadsText pool text
  | .load slot kind, item => item = .plain (.load kind (.ofIndex slot))
  | .store slot kind, item => item = .plain (.store kind (.ofIndex slot))
  | .arithmetic op, item => item = .plain (.arithmetic op)
  | .newLabel, _ | .bind _, _ => False
  | .branch condition label, item => item = .branch condition label
  | .jump label, item => item = .jump label
  | .getStatic m, item => ∃ i, item = .plain (.getStatic i) ∧ pool.IsField i m
  | .putStatic m, item => ∃ i, item = .plain (.putStatic i) ∧ pool.IsField i m
  | .invokeVirtual m, item => ∃ i, item = .plain (.invokeVirtual i) ∧ pool.IsMethod i m
  | .invokeStatic m, item => ∃ i, item = .plain (.invokeStatic i) ∧ pool.IsMethod i m
  | .invokeSpecial m, item => ∃ i, item = .plain (.invokeSpecial i) ∧ pool.IsMethod i m
  | .new className, item => ∃ i, item = .plain (.new i) ∧ pool.IsClass i className
  | .dup, item => item = .plain .dup

/-- The types that the local variables have after the call, if it is about no label. -/
def Assigns (b : Body) (locals : Types) : Call → Prop
  | .store slot _ => ∃ t, b.stack.back? = some t ∧ locals = (b.assigned slot t).locals
  | .invokeSpecial _ => ∃ f, locals = b.locals.map f
  | _ => locals = b.locals

end Call

/-- A plain instruction has been added, which took values off the operand stack and may have pushed one. -/
structure Body.Advances (b b' : Body) (i : Instruction) : Prop where
  continues : b.pool.WellFormed → b.Continues b'
  items : b'.items = b.items.push (.plain i)
  size : b'.size = b.size + i.size
  labels : b'.labels = b.labels
  reachable : b'.reachable = b.reachable
  maxLocals : b.maxLocals.toNat ≤ b'.maxLocals.toNat
  stack : b'.stack.size ≤ b.stack.size ∧ b'.maxStack = b.maxStack ∨
    ∃ S : Types, ∃ t, S.size ≤ b.stack.size ∧ b'.stack = S.push t ∧ b'.maxStack = max b.maxStack (S.size + 1).toUInt16

theorem toNat_max (a b : UInt16) : (max a b).toNat = max a.toNat b.toNat := by
  change (if a ≤ b then b else a).toNat = _
  split
  · next h =>
    have h : a.toNat ≤ b.toNat := h
    omega
  · next h =>
    have h : ¬a.toNat ≤ b.toNat := h
    omega

namespace Body

variable {b b' : Body} {pool : ConstantPool} {i : Instruction} {S : Types}

theorem advances_added (hpool : b.pool.WellFormed → b.pool.GrowsTo pool) (i : Instruction)
    (hS : S.size ≤ b.stack.size) : b.Advances (b.added pool (.plain i) S) i where
  continues wf := ⟨hpool wf, rfl, rfl, rfl⟩
  items := rfl
  size := rfl
  labels := rfl
  reachable := rfl
  maxLocals := Nat.le_refl _
  stack := .inl ⟨hS, rfl⟩

theorem advances_pushed (hpool : b.pool.WellFormed → b.pool.GrowsTo pool) (i : Instruction)
    (hS : S.size ≤ b.stack.size) (t : VerificationType) :
    b.Advances ((b.added pool (.plain i) S).pushed t) i where
  continues wf := ⟨hpool wf, rfl, rfl, rfl⟩
  items := rfl
  size := rfl
  labels := rfl
  reachable := rfl
  maxLocals := Nat.le_refl _
  stack := .inr ⟨S, t, hS, rfl, rfl⟩

theorem Advances.with_locals (h : b.Advances b' i) (locals : Types) : b.Advances { b' with locals } i where
  continues wf := ⟨(h.continues wf).pool, (h.continues wf).thisClass, (h.continues wf).entryLocals,
    (h.continues wf).wantsFrames⟩
  items := h.items
  size := h.size
  labels := h.labels
  reachable := h.reachable
  maxLocals := h.maxLocals
  stack := h.stack

theorem Advances.touched (h : b.Advances b' i) (slot : UInt16) : b.Advances (b'.touched slot) i where
  continues wf := ⟨(h.continues wf).pool, (h.continues wf).thisClass, (h.continues wf).entryLocals,
    (h.continues wf).wantsFrames⟩
  items := h.items
  size := h.size
  labels := h.labels
  reachable := h.reachable
  maxLocals := by
    rw [Body.touched, toNat_max]
    exact Nat.le_trans h.maxLocals (Nat.le_max_left _ _)
  stack := h.stack

theorem Returned.pool_eq {result : JavaType} (h : b.Returned b' result pool) : b'.pool = pool := by
  obtain ⟨-, rfl⟩ | ⟨-, t, -, rfl⟩ := h
  · rfl
  · rfl

theorem advances_returned (locals : Types) {result : JavaType} (hpool : b.pool.GrowsTo pool) (i : Instruction)
    (hS : S.size ≤ b.stack.size)
    (h : ({ b.added pool (.plain i) S with locals } : Body).Returned b' result pool) :
    b.Advances b' i ∧ b'.locals = locals := by
  obtain ⟨-, rfl⟩ | ⟨-, t, -, rfl⟩ := h
  · exact ⟨(advances_added (fun _ => hpool) i hS).with_locals locals, rfl⟩
  · exact ⟨(advances_pushed (fun _ => hpool) i hS t).with_locals locals, rfl⟩

end Body

open Body in
/-- All calls that are about no label add their instruction in the same way. -/
theorem Call.Effect.advances {c : Call} {b b' : Body} (h : c.Effect b b') (hmark : c.isMark = false)
    (hlabel : c.label? = none) :
    ∃ i, c.Emits b'.pool (.plain i) ∧ b.Advances b' i ∧ c.Assigns b b'.locals := by
  have hall : b.stack.size ≤ b.stack.size := Nat.le_refl _
  have hkeep : b.pool.WellFormed → b.pool.GrowsTo b.pool := ConstantPool.GrowsTo.refl
  cases c with
  | newLabel => cases hmark
  | bind label => cases hmark
  | branch condition label => cases hlabel
  | jump label => cases hlabel
  | pushInt value =>
    obtain ⟨pool, i, hgrows, hi, rfl⟩ := h
    exact ⟨i, ⟨i, rfl, hi⟩, advances_pushed (fun _ => hgrows) i hall _, rfl⟩
  | pushText text =>
    obtain ⟨pool, i, k, hgrows, hi, -, rfl⟩ := h
    exact ⟨i, ⟨i, rfl, hi⟩, advances_pushed (fun _ => hgrows) i hall _, rfl⟩
  | load slot kind =>
    obtain ⟨pool, t, hgrows, -, rfl⟩ := h
    exact ⟨_, rfl, (advances_pushed (fun _ => hgrows) _ hall t).touched slot, rfl⟩
  | store slot kind =>
    obtain ⟨S, t, hS, rfl⟩ := h
    have hleft : S.size ≤ b.stack.size := by simp [hS]
    have hadded := advances_added hkeep (.store kind (.ofIndex slot)) hleft
    exact ⟨_, rfl, (hadded.with_locals (b.assigned slot t).locals).touched slot, t, by simp [hS], rfl⟩
  | arithmetic op =>
    obtain ⟨S, popped, -, hS, rfl⟩ := h
    exact ⟨_, rfl, advances_pushed hkeep _ (by simp [hS]) _, rfl⟩
  | getStatic m =>
    obtain ⟨pool, i, type, t, hgrows, -, -, hi, rfl⟩ := h
    exact ⟨_, ⟨i, rfl, hi⟩, advances_pushed (fun _ => hgrows) _ hall t, rfl⟩
  | putStatic m =>
    obtain ⟨pool, i, S, t, hgrows, hi, hS, rfl⟩ := h
    exact ⟨_, ⟨i, rfl, hi⟩, advances_added (fun _ => hgrows) _ (by simp [hS]), rfl⟩
  | invokeVirtual m =>
    obtain ⟨pool, i, count, result, S, receiver, popped, hgrows, -, hi, -, hS, hreturned⟩ := h
    have hleft : S.size ≤ b.stack.size := by
      rw [hS, Array.size_append, Array.size_push]
      omega
    obtain ⟨hadvances, hlocals⟩ := advances_returned b.locals hgrows (.invokeVirtual i) hleft hreturned
    exact ⟨_, ⟨i, rfl, hreturned.pool_eq ▸ hi⟩, hadvances, hlocals⟩
  | invokeStatic m =>
    obtain ⟨pool, i, count, result, S, popped, hgrows, -, hi, -, hS, hreturned⟩ := h
    have hleft : S.size ≤ b.stack.size := by simp [hS]
    obtain ⟨hadvances, hlocals⟩ := advances_returned b.locals hgrows (.invokeStatic i) hleft hreturned
    exact ⟨_, ⟨i, rfl, hreturned.pool_eq ▸ hi⟩, hadvances, hlocals⟩
  | invokeSpecial m =>
    obtain ⟨pool, i, count, result, S, receiver, popped, f, hgrows, -, hi, -, hS, -, hreturned⟩ := h
    have hleft : (S.map f).size ≤ b.stack.size := by
      rw [hS, Array.size_append, Array.size_push, Array.size_map]
      omega
    obtain ⟨hadvances, hlocals⟩ := advances_returned (b.locals.map f) hgrows (.invokeSpecial i) hleft hreturned
    exact ⟨_, ⟨i, rfl, hreturned.pool_eq ▸ hi⟩, hadvances, f, hlocals⟩
  | new className =>
    obtain ⟨pool, i, hgrows, hi, -, rfl⟩ := h
    exact ⟨_, ⟨i, rfl, hi⟩, advances_pushed (fun _ => hgrows) _ hall _, rfl⟩
  | dup =>
    obtain ⟨S, t, -, rfl⟩ := h
    exact ⟨_, rfl, advances_pushed hkeep _ hall t, rfl⟩

/-! ## Constants and instructions -/

theorem Call.Effect.continues {c : Call} {b b' : Body} (wf : b.pool.WellFormed) (h : c.Effect b b') :
    b.Continues b' := by
  have keep : b.pool.GrowsTo b.pool := .refl wf
  cases c with
  | newLabel => obtain rfl := h; exact ⟨keep, rfl, rfl, rfl⟩
  | branch condition label => obtain ⟨S, popped, l, -, -, -, -, rfl⟩ := h; exact ⟨keep, rfl, rfl, rfl⟩
  | jump label => obtain ⟨l, -, -, rfl⟩ := h; exact ⟨keep, rfl, rfl, rfl⟩
  | bind label => obtain ⟨l, -, -, ⟨-, -, rfl⟩ | ⟨-, rfl⟩⟩ := h <;> exact ⟨keep, rfl, rfl, rfl⟩
  | _ =>
    obtain ⟨i, -, hadvances, -⟩ := h.advances rfl rfl
    exact hadvances.continues wf

theorem Performs.continues {calls : List Call} {b b' : Body} (wf : b.pool.WellFormed) (h : Performs calls b b') :
    b.Continues b' := by
  induction h with
  | nil b => exact .refl wf
  | cons first rest ih =>
    have hfirst := first.continues wf
    exact hfirst.trans (ih hfirst.wellFormed)

theorem performs_of_ok {calls : List Call} {b b' : Body} (wf : b.pool.WellFormed)
    (h : Call.performAll calls b = .ok () b') : Performs calls b b' := by
  induction calls generalizing b with
  | nil =>
    cases h
    exact .nil b'
  | cons c calls ih =>
    obtain ⟨_, m, hc, hrest⟩ := bind_eq_ok.1 h
    have first : c.Effect b m := (c.behaves wf).of_ok hc
    exact .cons first (ih (first.continues wf).wellFormed hrest)

theorem Instruction.LoadsInt.mono {i : Instruction} {pool later : ConstantPool} {value : Int32}
    (hext : pool.Extends later) (h : i.LoadsInt pool value) : i.LoadsInt later value := by
  cases i with
  | ldc index => exact ConstantPool.IsInteger.mono hext h
  | ldcWide index => exact ConstantPool.IsInteger.mono hext h
  | _ => exact h

theorem Instruction.LoadsText.mono {i : Instruction} {pool later : ConstantPool} {text : String}
    (hext : pool.Extends later) (h : i.LoadsText pool text) : i.LoadsText later text := by
  cases i with
  | ldc index => exact ConstantPool.IsString.mono hext h
  | ldcWide index => exact ConstantPool.IsString.mono hext h
  | _ => exact h

theorem Call.Emits.mono {c : Call} {item : Item} {pool later : ConstantPool} (hext : pool.Extends later)
    (h : c.Emits pool item) : c.Emits later item := by
  cases c with
  | pushInt value => obtain ⟨i, rfl, hi⟩ := h; exact ⟨i, rfl, hi.mono hext⟩
  | pushText text => obtain ⟨i, rfl, hi⟩ := h; exact ⟨i, rfl, hi.mono hext⟩
  | getStatic m => obtain ⟨i, rfl, hi⟩ := h; exact ⟨i, rfl, hi.mono hext⟩
  | putStatic m => obtain ⟨i, rfl, hi⟩ := h; exact ⟨i, rfl, hi.mono hext⟩
  | invokeVirtual m => obtain ⟨i, rfl, hi⟩ := h; exact ⟨i, rfl, hi.mono hext⟩
  | invokeStatic m => obtain ⟨i, rfl, hi⟩ := h; exact ⟨i, rfl, hi.mono hext⟩
  | invokeSpecial m => obtain ⟨i, rfl, hi⟩ := h; exact ⟨i, rfl, hi.mono hext⟩
  | new className => obtain ⟨i, rfl, hi⟩ := h; exact ⟨i, rfl, hi.mono hext⟩
  | _ => exact h

theorem Call.Effect.adds {c : Call} {b b' : Body} (h : c.Effect b b') :
    (c.isMark = true ∧ b'.items = b.items ∧ b'.size = b.size) ∨
      (c.isMark = false ∧ ∃ item, c.Emits b'.pool item ∧ b'.items = b.items.push item ∧
        b'.size = b.size + item.instruction.size) := by
  cases c with
  | newLabel => obtain rfl := h; exact .inl ⟨rfl, rfl, rfl⟩
  | bind label => obtain ⟨l, -, -, ⟨-, -, rfl⟩ | ⟨-, rfl⟩⟩ := h <;> exact .inl ⟨rfl, rfl, rfl⟩
  | branch condition label => obtain ⟨S, popped, l, -, -, -, -, rfl⟩ := h; exact .inr ⟨rfl, _, rfl, rfl, rfl⟩
  | jump label => obtain ⟨l, -, -, rfl⟩ := h; exact .inr ⟨rfl, _, rfl, rfl, rfl⟩
  | _ =>
    obtain ⟨i, hemits, hadvances, -⟩ := h.advances rfl rfl
    exact .inr ⟨rfl, .plain i, hemits, hadvances.items, hadvances.size⟩

/-- The instructions that calls add, one after the other. -/
inductive Laid (pool : ConstantPool) : List Call → List Item → Prop
  | nil : Laid pool [] []
  | mark {c : Call} {calls : List Call} {items : List Item} (hc : c.isMark = true) (rest : Laid pool calls items) :
      Laid pool (c :: calls) items
  | item {c : Call} {calls : List Call} {i : Item} {items : List Item} (hc : c.isMark = false) (hi : c.Emits pool i)
      (rest : Laid pool calls items) : Laid pool (c :: calls) (i :: items)

def itemCount (calls : List Call) : Nat := calls.countP (!·.isMark)

@[simp] theorem itemCount_nil : itemCount [] = 0 := rfl

@[simp] theorem itemCount_append (first second : List Call) :
    itemCount (first ++ second) = itemCount first + itemCount second := by
  simp [itemCount]

theorem itemCount_mark {c : Call} (hc : c.isMark = true) (calls : List Call) : itemCount (c :: calls) = itemCount calls := by
  simp [itemCount, hc]

theorem itemCount_item {c : Call} (hc : c.isMark = false) (calls : List Call) :
    itemCount (c :: calls) = itemCount calls + 1 := by
  simp [itemCount, hc]

namespace Laid

variable {pool : ConstantPool} {calls done rest : List Call} {items : List Item} {c : Call}

theorem length_eq (h : Laid pool calls items) : items.length = itemCount calls := by
  induction h with
  | nil => rfl
  | mark hc _ ih => rw [itemCount_mark hc, ih]
  | item hc _ _ ih => rw [itemCount_item hc, List.length_cons, ih]

theorem get?_eq (h : Laid pool (done ++ c :: rest) items) (hc : c.isMark = false) :
    ∃ i, items[itemCount done]? = some i ∧ c.Emits pool i := by
  induction done generalizing items with
  | nil =>
    cases h with
    | mark hmark _ => rw [hc] at hmark; cases hmark
    | item _ hi _ => exact ⟨_, rfl, hi⟩
  | cons d done ih =>
    cases h with
    | mark hd htail =>
      rw [itemCount_mark hd]
      exact ih htail
    | item hd _ htail =>
      rw [itemCount_item hd]
      exact ih htail

theorem exists_call (h : Laid pool calls items) {i : Item} (hi : i ∈ items) : ∃ c ∈ calls, c.Emits pool i := by
  induction h with
  | nil => cases hi
  | mark _ _ ih =>
    obtain ⟨c, hc, hemits⟩ := ih hi
    exact ⟨c, .tail _ hc, hemits⟩
  | item _ hemits _ ih =>
    rcases List.mem_cons.1 hi with rfl | hi
    · exact ⟨_, .head _, hemits⟩
    · obtain ⟨c, hc, hemits⟩ := ih hi
      exact ⟨c, .tail _ hc, hemits⟩

end Laid

theorem Performs.adds {calls : List Call} {b b' : Body} (wf : b.pool.WellFormed) (h : Performs calls b b') :
    ∃ items, Laid b'.pool calls items ∧ b'.items = b.items ++ items.toArray ∧
      b'.size = b.size + codeSize (items.map Item.instruction) := by
  induction h with
  | nil b => exact ⟨[], .nil, by simp, by simp⟩
  | cons first rest ih =>
    have hfirst := first.continues wf
    have hrest := rest.continues hfirst.wellFormed
    obtain ⟨items, hlaid, hitems, hsize⟩ := ih hfirst.wellFormed
    obtain ⟨hmark, hsame, hsize'⟩ | ⟨hitem, i, hemits, hpush, hsize'⟩ := first.adds
    · exact ⟨items, .mark hmark hlaid, by rw [hitems, hsame], by rw [hsize, hsize']⟩
    · refine ⟨i :: items, .item hitem (hemits.mono hrest.pool.1) hlaid, ?_, ?_⟩
      · rw [hitems, hpush]
        simp
      · rw [hsize, hsize', List.map_cons, codeSize_cons, Nat.add_assoc]

/-! ## Labels -/

theorem getElem?_push_cases {labels : Array Label} {new l : Label} {i : Nat} (h : (labels.push new)[i]? = some l) :
    l = new ∨ labels[i]? = some l := by
  rw [Array.getElem?_push] at h
  split at h
  · exact .inl (Option.some.inj h).symm
  · exact .inr h

theorem getElem?_modify_cases {labels : Array Label} {k i : Nat} {f : Label → Label} {l' : Label}
    (h : (labels.modify k f)[i]? = some l') :
    (k = i ∧ ∃ l, labels[k]? = some l ∧ f l = l') ∨ (k ≠ i ∧ labels[i]? = some l') := by
  rw [Array.getElem?_modify] at h
  split at h
  · next hki =>
    subst hki
    exact .inl ⟨rfl, Option.map_eq_some_iff.1 h⟩
  · next hki => exact .inr ⟨hki, h⟩

/-- How a label can change: what is settled stays. -/
structure Label.Becomes (l l' : Label) : Prop where
  position : ∀ p, l.position = some p → l'.position = some p
  referenced : l.referenced = true → l'.referenced = true
  stack : ∀ S, l.stack = some S → l'.stack = some S
  locals : l'.locals.size ≤ l.locals.size

theorem Label.Becomes.refl (l : Label) : l.Becomes l := ⟨fun _ => id, id, fun _ => id, Nat.le_refl _⟩

theorem Label.Becomes.trans {k l m : Label} (hkl : k.Becomes l) (hlm : l.Becomes m) : k.Becomes m :=
  ⟨fun p hp => hlm.position p (hkl.position p hp), fun hr => hlm.referenced (hkl.referenced hr),
    fun S hS => hlm.stack S (hkl.stack S hS), Nat.le_trans hlm.locals hkl.locals⟩

theorem size_mergeLocals (a b : Types) : (mergeLocals a b).size = min a.size b.size := Array.size_zipWith

theorem Label.becomes_join {l : Label} {stack : Types} (locals : Types) (h : l.Fits stack) :
    l.Becomes (l.join stack locals) := by
  refine ⟨fun _ => id, id, fun S hS => congrArg some (h S hS).symm, ?_⟩
  rw [Label.join, size_mergeLocals]
  exact Nat.min_le_left _ _

theorem Call.Emits.cases {pool : ConstantPool} {c : Call} {item : Item} (h : c.Emits pool item) :
    (∃ i, item = .plain i ∧ c.label? = none) ∨
      (∃ condition label, item = .branch condition label ∧ c = .branch condition label) ∨
      (∃ label, item = .jump label ∧ c = .jump label) := by
  cases c with
  | branch condition l => exact .inr (.inl ⟨condition, l, h, rfl⟩)
  | jump l => exact .inr (.inr ⟨l, h, rfl⟩)
  | load slot kind => exact .inl ⟨_, h, rfl⟩
  | store slot kind => exact .inl ⟨_, h, rfl⟩
  | arithmetic op => exact .inl ⟨_, h, rfl⟩
  | dup => exact .inl ⟨_, h, rfl⟩
  | newLabel => exact h.elim
  | bind l => exact h.elim
  | pushInt value => obtain ⟨i, hi, -⟩ := h; exact .inl ⟨_, hi, rfl⟩
  | pushText text => obtain ⟨i, hi, -⟩ := h; exact .inl ⟨_, hi, rfl⟩
  | getStatic m => obtain ⟨i, hi, -⟩ := h; exact .inl ⟨_, hi, rfl⟩
  | putStatic m => obtain ⟨i, hi, -⟩ := h; exact .inl ⟨_, hi, rfl⟩
  | invokeVirtual m => obtain ⟨i, hi, -⟩ := h; exact .inl ⟨_, hi, rfl⟩
  | invokeStatic m => obtain ⟨i, hi, -⟩ := h; exact .inl ⟨_, hi, rfl⟩
  | invokeSpecial m => obtain ⟨i, hi, -⟩ := h; exact .inl ⟨_, hi, rfl⟩
  | new className => obtain ⟨i, hi, -⟩ := h; exact .inl ⟨_, hi, rfl⟩

theorem Call.Emits.label?_eq {pool : ConstantPool} {c : Call} {item : Item} {label : Nat}
    (h : c.Emits pool item) (hlabel : item.label? = some label) : c.label? = some label := by
  obtain ⟨i, rfl, -⟩ | ⟨condition, l, rfl, rfl⟩ | ⟨l, rfl, rfl⟩ := h.cases
  · cases hlabel
  · exact hlabel
  · exact hlabel

theorem Call.Effect.labels {c : Call} {b b' : Body} (h : c.Effect b b') :
    (c = .newLabel ∧ b'.labels = b.labels.push ⟨none, false, b.locals, none⟩) ∨
      (∃ i l f, c.label? = some i ∧ b.labels[i]? = some l ∧ b'.labels = b.labels.modify i f ∧ l.Becomes (f l)) ∨
      (c ≠ .newLabel ∧ c.label? = none ∧ b'.labels = b.labels ∧ b'.reachable = b.reachable) := by
  cases c with
  | newLabel => obtain rfl := h; exact .inl ⟨rfl, rfl⟩
  | branch condition label =>
    obtain ⟨S, popped, l, -, -, hl, hfits, rfl⟩ := h
    have hjoin := Label.becomes_join b.locals hfits
    refine .inr (.inl ⟨label, l, fun l => { l.join S b.locals with referenced := true }, rfl, hl, rfl, ?_⟩)
    exact ⟨hjoin.position, fun _ => rfl, hjoin.stack, hjoin.locals⟩
  | jump label =>
    obtain ⟨l, hl, hfits, rfl⟩ := h
    have hjoin := Label.becomes_join b.locals hfits
    refine .inr (.inl ⟨label, l, fun l => { l.join b.stack b.locals with referenced := true }, rfl, hl, rfl, ?_⟩)
    exact ⟨hjoin.position, fun _ => rfl, hjoin.stack, hjoin.locals⟩
  | bind label =>
    obtain ⟨l, hl, hfree, ⟨-, hfits, rfl⟩ | ⟨-, rfl⟩⟩ := h
    · have hjoin := Label.becomes_join b.locals hfits
      refine .inr (.inl ⟨label, l, fun l => { l.join b.stack b.locals with position := some b.items.size }, rfl, hl, rfl, ?_⟩)
      exact ⟨by simp [hfree], id, hjoin.stack, hjoin.locals⟩
    · refine .inr (.inl ⟨label, l, fun l => { l with position := some b.items.size }, rfl, hl, rfl, ?_⟩)
      exact ⟨by simp [hfree], id, fun _ => id, Nat.le_refl _⟩
  | _ =>
    obtain ⟨i, -, hadvances, -⟩ := h.advances rfl rfl
    exact .inr (.inr ⟨by simp, rfl, hadvances.labels, hadvances.reachable⟩)

theorem Call.Effect.labels_other {c : Call} {b b' : Body} (h : c.Effect b b') {i : Nat} (hi : i < b.labels.size)
    (hother : c.label? ≠ some i) : b'.labels[i]? = b.labels[i]? := by
  obtain ⟨-, heq⟩ | ⟨k, l, f, hk, -, heq, -⟩ | ⟨-, -, heq, -⟩ := h.labels
  · rw [heq, Array.getElem?_push, if_neg (by omega)]
  · have hne : k ≠ i := fun hki => hother (by rw [hk, hki])
    rw [heq, Array.getElem?_modify, if_neg hne]
  · rw [heq]

theorem Call.Effect.label_becomes {c : Call} {b b' : Body} (h : c.Effect b b') {i : Nat} {l : Label}
    (hl : b.labels[i]? = some l) : ∃ l', b'.labels[i]? = some l' ∧ l.Becomes l' := by
  obtain ⟨hi, -⟩ := Array.getElem?_eq_some_iff.1 hl
  obtain ⟨-, heq⟩ | ⟨k, l', f, hk, hl', heq, hbecomes⟩ | ⟨-, -, heq, -⟩ := h.labels
  · refine ⟨l, ?_, .refl l⟩
    rw [heq, Array.getElem?_push, if_neg (by omega), hl]
  · rw [heq, Array.getElem?_modify]
    by_cases hki : k = i
    · subst hki
      rw [hl] at hl'
      cases hl'
      exact ⟨f l, by simp [hl], hbecomes⟩
    · exact ⟨l, by simp [hki, hl], .refl l⟩
  · exact ⟨l, by rw [heq, hl], .refl l⟩

theorem Performs.label_becomes {calls : List Call} {b b' : Body} (h : Performs calls b b') {i : Nat} {l : Label}
    (hl : b.labels[i]? = some l) : ∃ l', b'.labels[i]? = some l' ∧ l.Becomes l' := by
  induction h generalizing l with
  | nil b => exact ⟨l, hl, .refl l⟩
  | cons first rest ih =>
    obtain ⟨l', hl', hbecomes⟩ := first.label_becomes hl
    obtain ⟨l'', hl'', hbecomes'⟩ := ih hl'
    exact ⟨l'', hl'', hbecomes.trans hbecomes'⟩

def Body.position? (b : Body) (label : Nat) : Option Nat := b.labels[label]?.bind (·.position)

theorem Call.Effect.bind_position {label : Nat} {b b' : Body} (h : (Call.bind label).Effect b b') :
    b'.position? label = some b.items.size := by
  obtain ⟨l, hl, -, ⟨-, -, rfl⟩ | ⟨-, rfl⟩⟩ := h <;> simp [Body.position?, Array.getElem?_modify, hl]

theorem Performs.position? {calls : List Call} {b b' : Body} (h : Performs calls b b') {label p : Nat}
    (hp : b.position? label = some p) : b'.position? label = some p := by
  obtain ⟨l, hl, hposition⟩ := Option.bind_eq_some_iff.1 hp
  obtain ⟨l', hl', hbecomes⟩ := h.label_becomes hl
  exact Option.bind_eq_some_iff.2 ⟨l', hl', hbecomes.position p hposition⟩

theorem Performs.position?_of_bind {done rest : List Call} {label : Nat} {b b' : Body} (wf : b.pool.WellFormed)
    (h : Performs (done ++ .bind label :: rest) b b') :
    b'.position? label = some (b.items.size + itemCount done) := by
  obtain ⟨m, hdone, htail⟩ := performs_append.1 h
  obtain ⟨m', hbind, hrest⟩ := performs_cons.1 htail
  obtain ⟨items, hlaid, hitems, -⟩ := hdone.adds wf
  have hsize : m.items.size = b.items.size + itemCount done := by
    simp [hitems, hlaid.length_eq]
  rw [← hsize]
  exact hrest.position? hbind.bind_position

theorem Performs.bind_not_mem {done rest : List Call} {label : Nat} {b b' : Body}
    (h : Performs (done ++ .bind label :: rest) b b') : .bind label ∉ done := by
  intro hmem
  obtain ⟨m, hdone, htail⟩ := performs_append.1 h
  obtain ⟨m', hbind, -⟩ := performs_cons.1 htail
  obtain ⟨before, between, rfl⟩ := List.append_of_mem hmem
  obtain ⟨m₁, -, hbetween⟩ := performs_append.1 hdone
  obtain ⟨m₂, hfirst, hrest⟩ := performs_cons.1 hbetween
  have hposition := hrest.position? hfirst.bind_position
  obtain ⟨l, hl, hfree, -⟩ := hbind
  rw [Body.position?, hl] at hposition
  simp [hfree] at hposition

theorem Call.Effect.labels_size {c : Call} {b b' : Body} (h : c.Effect b b') :
    b'.labels.size = b.labels.size + [c].count .newLabel := by
  obtain ⟨rfl, heq⟩ | ⟨k, l, f, hk, -, heq, -⟩ | ⟨hc, -, heq, -⟩ := h.labels
  · rw [heq, Array.size_push]
    rfl
  · have hc : c ≠ .newLabel := by
      rintro rfl
      cases hk
    rw [heq, Array.size_modify, List.count_singleton]
    simp [hc]
  · rw [heq, List.count_singleton]
    simp [hc]

theorem Performs.labels_size {calls : List Call} {b b' : Body} (h : Performs calls b b') :
    b'.labels.size = b.labels.size + calls.count .newLabel := by
  induction h with
  | nil b => rfl
  | cons first rest ih =>
    rw [ih, first.labels_size, Nat.add_assoc, ← List.count_append, List.singleton_append]

theorem Performs.labels_other {calls : List Call} {b b' : Body} (h : Performs calls b b') {i : Nat}
    (hi : i < b.labels.size) (hother : ∀ c ∈ calls, c.label? ≠ some i) : b'.labels[i]? = b.labels[i]? := by
  induction h with
  | nil b => rfl
  | cons first rest ih =>
    have hsize := first.labels_size
    rw [ih (by omega) fun c hc => hother c (.tail _ hc)]
    exact first.labels_other hi (hother _ (.head _))

theorem Performs.isSome_position? {calls : List Call} {b b' : Body} (h : Performs calls b b') {label : Nat}
    (hbind : .bind label ∈ calls) : (b'.position? label).isSome := by
  obtain ⟨done, rest, rfl⟩ := List.append_of_mem hbind
  obtain ⟨m, -, htail⟩ := performs_append.1 h
  obtain ⟨m', hlabel, hrest⟩ := performs_cons.1 htail
  rw [hrest.position? hlabel.bind_position]
  rfl

end KnightCode
