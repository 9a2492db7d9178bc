import KnightCode.Proofs.CodeExecution
import KnightCode.Proofs.Console
import KnightCode.Proofs.Simulation
import KnightCode.Proofs.StoredCode

/-!
# Compiled programs behave like their source

The code array of `main` prints what the program prints and ends as the program ends. The proof goes through the calls:
the machine that executes them simulates the program on one side and the code array on the other.
-/

namespace KnightCode

namespace CallMachine

/-! ## The start -/

theorem defaults_run (M : CallMachine) (vars : List Variable) (rest : List Call) (a : Activation)
    (hslots : ∀ v ∈ vars, ∀ w ∈ vars, v.slot = w.slot → v.type = w.type) :
    ∃ n later, Stepping.Runs M.step n ⟨vars.flatMap defaultCalls ++ rest, a⟩ [] ⟨rest, later⟩ ∧
      later.stack = a.stack ∧ later.input = a.input ∧
      (∀ v ∈ vars, later.locals v.slot = some (.ofValue v.type.default)) ∧
      ∀ slot, (∀ v ∈ vars, v.slot ≠ slot) → later.locals slot = a.locals slot := by
  induction vars generalizing a with
  | nil => exact ⟨0, a, .refl _, rfl, rfl, by simp, fun _ _ => rfl⟩
  | cons v vars ih =>
    let next : Activation :=
      { a with locals := fun slot => if slot = v.slot then some (.ofValue v.type.default) else a.locals slot }
    have hfirst : Stepping.Runs M.step 2 ⟨defaultCalls v ++ (vars.flatMap defaultCalls ++ rest), a⟩ []
        ⟨vars.flatMap defaultCalls ++ rest, next⟩ := by
      have hpush : ∀ rest, M.step ⟨pushDefault v.type :: rest, a⟩ = .go ⟨rest, a.push (.ofValue v.type.default)⟩ [] := by
        intro rest
        cases v.type <;> rfl
      have hstore : (a.push (.ofValue v.type.default)).store v.type.kind v.slot = .ok (next, []) := by
        simp [Activation.store, Activation.push, next]
      rw [defaultCalls_eq]
      exact .cons (hpush _) (.single (step_of_operate rfl rfl hstore))
    obtain ⟨n, later, hrun, hstack, hinput, hvars, hother⟩ :=
      ih next fun w hw u hu => hslots w (.tail _ hw) u (.tail _ hu)
    refine ⟨2 + n, later, ?_, hstack, hinput, ?_, ?_⟩
    · rw [List.flatMap_cons, List.append_assoc]
      exact hfirst.trans hrun
    · intro w hw
      -- A later variable may have the same slot, but then it has the same type and the same first value.
      by_cases hlater : ∃ u ∈ vars, u.slot = w.slot
      · obtain ⟨u, hu, hslot⟩ := hlater
        rw [← hslot, hvars u hu, hslots u (.tail _ hu) w hw hslot]
      · obtain rfl | hw := List.mem_cons.1 hw
        · rw [hother w.slot fun u hu hslot => hlater ⟨u, hu, hslot⟩]
          exact if_pos rfl
        · exact absurd ⟨w, hw, rfl⟩ hlater
    · intro slot hslot
      rw [hother slot fun u hu => hslot u (.tail _ hu)]
      exact if_neg (hslot v (.head _)).symm

end CallMachine

namespace Artifact

variable {program : Program} {className : String} {options : Options} {c : ClassFile} {s : Session}
  {code : MethodCode} {a : Artifact}

/-! ## The class -/

theorem HasParts.static?_console {k : ClassFile} (h : HasParts className options code true k) :
    k.static? (Library.console className) = some .scanner := by
  obtain ⟨init, main, others, -, -, -, n, d, m, hfields, hn, hd, -⟩ := h.methods
  have hdeclares : k.declares (Library.console className) = true := by
    simp [ClassFile.declares, hfields, Member.make, h.thisClass.className?, hn.text?, hd.text?, Library.console]
  have hother : Library.console className ≠ ⟨"java/lang/System", "out", "Ljava/io/PrintStream;"⟩ :=
    console_ne_output className
  rw [ClassFile.static?, if_neg hother, if_pos ⟨rfl, hdeclares⟩]

theorem Made.suits (h : Made program className options c s code a) (java : JavaText) :
    CallMachine.Suits ⟨java, a.classFile.static?, program.calls className⟩ className program.find := by
  obtain ⟨arguments, -, hcompiled⟩ := h.compiled.opened
  refine ⟨?_, ?_, rfl, ?_⟩
  · -- No label is bound twice.
    rintro done rest label heq
    have hperforms := hcompiled.performs
    rw [show program.calls className = done ++ .bind label :: rest from heq] at hperforms
    exact hperforms.bind_not_mem
  · -- Variables with one slot are one variable.
    intro x y v w hv hw hslot
    obtain ⟨hv, hx⟩ := program.flat_table.mem_of_lookup? hv
    obtain ⟨hw, hy⟩ := program.flat_table.mem_of_lookup? hw
    rw [← hx, ← hy, program.flat_table.slot_injective hv hw hslot]
  · -- A call that takes the console comes from a statement that reads.
    intro hmem
    have hreads : s.readsInput = true := by
      rw [h.compiled.readsInput, program.fullPlan_reads]
      exact program.reads_of_mem hmem
    have hparts := h.parts.1
    rw [hreads] at hparts
    exact hparts.static?_console

theorem start_related (java : JavaText) (static? : MemberRef → Option Datum) (program : Program) (className : String)
    (htyping : program.find.typing = program.typing) (input : List String) :
    ∃ n t, Stepping.Runs (CallMachine.step ⟨java, static?, program.calls className⟩) n
        ⟨program.calls className, .start input⟩ [] t ∧
      CallMachine.Related ⟨java, static?, program.calls className⟩ className program.find (program.start input) t := by
  have flat := program.flat_table
  have hslots : ∀ v ∈ program.table.current, ∀ w ∈ program.table.current, v.slot = w.slot → v.type = w.type :=
    fun v hv w hw heq => by rw [flat.slot_injective hv hw heq]
  obtain ⟨n, later, hrun, hstack, hinput, hvars, -⟩ :=
    CallMachine.defaults_run ⟨java, static?, program.calls className⟩ program.table.current
      (blockCalls className program.find program.body 0) (.start input) hslots
  have hdone : CallMachine.Ahead ⟨java, static?, program.calls className⟩ className program.find [] [] := .done
  have hahead := hdone.block program.body 0
  rw [List.append_nil, List.append_nil] at hahead
  refine ⟨n, _, hrun, hahead, List.suffix_append _ _, hstack, ?_, hinput⟩
  intro x v hv
  refine ⟨v.type.default, ?_, hvars v (flat.mem_of_lookup? hv).1⟩
  simp [Program.start, ← htyping, Lookup.typing, hv]

theorem bind_mem_calls {call : Call} (hcall : call ∈ program.calls className) {label : Nat}
    (hlabel : call.label? = some label) : .bind label ∈ program.calls className := by
  have owns := program.ownsLabels_calls className
  obtain ⟨hle, hlt⟩ := owns.label_range call hcall label hlabel
  exact owns.bind_mem label hle hlt

/-- A well-typed program and the code array of its `main` behave in the same way on every input. -/
theorem main_behaves_like_program (java : JavaText) (program : Program) (className : String) (options : Options)
    (a : Artifact) (typed : program.wellTyped = true) (compiled : ofProgram program className options = .ok a)
    (input : List String) :
    ∃ payload, a.classFile.code? "main" = some payload ∧
      Stepping.SameBehaviour (program.step java) (program.start input)
        (a.classFile.step java payload.code) (.start input) ∧
      ∀ lines, ¬Stepping.Ends (program.step java) (program.start input) lines .wrong := by
  obtain ⟨c, s, code, made⟩ := made_of_ok compiled
  obtain ⟨arguments, hopened, hcompiled⟩ := made.compiled.opened
  obtain ⟨hparts, hext, -⟩ := made.parts
  have built := hcompiled.built hopened.wellFormed made.finish
  obtain ⟨main, attributes, -, -, -, hpayload⟩ := made.main_code
  have htyping := made.compiled.typing
  have sound := program.sound_start typed input
  have suits := made.suits java
  -- The calls simulate the program, once the variables have their first values.
  obtain ⟨n, t, hrun, hrelated⟩ :=
    start_related java a.classFile.static? program className htyping input
  have hsource := (CallMachine.simulates suits).delayed
  rw [htyping] at hsource
  have hprogram := hsource.sameBehaviour ⟨n, t, hrun, sound, hrelated⟩
  -- The calls simulate the code array.
  have htarget := code_simulated built java hext hcompiled.reachable fun call hcall label =>
    bind_mem_calls hcall
  have hmachine := htarget.sameBehaviour (s := .start input) (t := ⟨program.calls className, .start input⟩)
    ⟨rfl, [], rfl, rfl⟩
  exact ⟨payload code attributes, hpayload, hprogram.trans hmachine.symm, sound.not_wrong java⟩

/-- Reads a number and counts down from it, with a word for each odd and even number. -/
def countdown : Program :=
  ⟨"Countdown", some [⟨.integer, "n"⟩, ⟨.text, "word"⟩],
    [.read "n",
     .whileDo ⟨.name "n", .greater, .number 0⟩
      [.setText "word" "even",
       .ifThen ⟨.name "n", .different, .number 2⟩ [.setText "word" "odd"],
       .printName "word",
       .setExpr "n" (.arithmetic .sub (.name "n") (.compare .less (.number 0) (.paren (.name "n"))))]]⟩

def readsThree : JavaText := ⟨id, fun text => if text = "3" then some 3 else none, fun n => toString n.toInt⟩

theorem main_behaves_like_program_countdown :
    ∃ a payload, ofProgram countdown "Countdown" ⟨false, .fatal, none⟩ = .ok a ∧ countdown.wellTyped = true ∧
      a.classFile.code? "main" = some payload ∧
      Stepping.Ends (a.classFile.step readsThree payload.code) (.start ["3"]) ["odd", "even", "odd"] .finished := by
  have hrun : (ofProgram countdown "Countdown" ⟨false, .fatal, none⟩).isOk = true := by decide +kernel
  have hsource : Stepping.Ends (countdown.step readsThree) (countdown.start ["3"]) ["odd", "even", "odd"] .finished :=
    Stepping.ends_iff.2 ⟨30, by decide +kernel⟩
  cases hok : ofProgram countdown "Countdown" ⟨false, .fatal, none⟩ with
  | error failure =>
    rw [hok] at hrun
    cases hrun
  | ok a =>
    obtain ⟨payload, hpayload, hsame, -⟩ :=
      main_behaves_like_program readsThree countdown "Countdown" ⟨false, .fatal, none⟩ a (by decide +kernel) hok ["3"]
    exact ⟨a, payload, rfl, by decide +kernel, hpayload, (hsame.ends _ _).1 hsource⟩

end Artifact

end KnightCode
