import KnightCode.Compile.Generation
import KnightCode.Jvm.ClassName
import KnightCode.Source.Reading

/-!
# Artifacts

The class that a program is compiled to: a constructor, the method `main`, and, if the program reads from the console, a
field that holds the console reader and the initializer that fills it.
-/

namespace KnightCode

structure Options where
  /-- Write a class that needs frames, and the frames. Without them an older version of class files is written. -/
  frames : Bool
  policy : UndeclaredPolicy
  /-- The name of the source file, if the class is to say it. -/
  sourceFile : Option String
  deriving DecidableEq, Repr

structure Artifact where
  classFile : ClassFile
  notices : List Notice

structure Failure where
  fault : Fault
  notices : List Notice
  deriving DecidableEq, Repr

def Artifact.hasErrors (a : Artifact) : Bool := a.notices.any (·.severity = .error)

namespace Artifact

def objectClass : String := "java/lang/Object"

def superInit : MemberRef := ⟨objectClass, "<init>", "()V"⟩

def mainDescriptor : String := "([Ljava/lang/String;)V"

def argumentsClass : String := "[Ljava/lang/String;"

abbrev Assembling := EStateM Fault ClassFile

/-- Asks the constant pool of the class, which is taken out of it meanwhile. -/
def request {α : Type} (r : Interning α) : Assembling α := fun c =>
  let pool := c.pool
  let c := { c with pool := .empty }
  match r pool with
  | .ok a pool => .ok a { c with pool }
  | .error e pool => .error (.code (.pool e)) { c with pool }

def addMethod (access : UInt16) (name descriptor : String) (code : MethodCode) : Assembling Unit := do
  let attributes ← match code.frames with
    | some entries => do
      let tableName ← request (ConstantPool.utf8 "StackMapTable")
      pure [Attribute.make tableName (Frame.tableBytes entries)]
    | none => pure []
  -- Constants are asked for in this order, which fixes their indices.
  let payload := Code.make code.maxStack code.maxLocals (assemble code.instructions) [] attributes
  let codeName ← request (ConstantPool.utf8 "Code")
  let name ← request (ConstantPool.utf8 name)
  let descriptor ← request (ConstantPool.utf8 descriptor)
  let method := Member.make access name descriptor [.make codeName payload.bytes]
  modify fun c => { c with methods := c.methods ++ [method] }

def buildCode (entryLocals : List VerificationType) (frames : Bool) (calls : List Call) :
    Assembling MethodCode := fun c =>
  match Call.performAll calls (.start c.pool c.thisClass entryLocals frames) with
  | .ok _ body =>
    let c := { c with pool := body.pool }
    match body.finish with
    | .ok code => .ok code c
    | .error fault => .error fault c
  | .error fault body => .error fault { c with pool := body.pool }

def constructorCalls : List Call := [.load 0 .reference, .invokeSpecial superInit]

def addConstructor (frames : Bool) : Assembling Unit := do
  let code ← buildCode [.uninitializedThis] frames constructorCalls
  addMethod Access.isPublic "<init>" "()V" code

def consoleCalls (className : String) : List Call :=
  [.new Library.scannerClass, .dup, .getStatic Library.input, .invokeSpecial Library.newScanner,
    .putStatic (Library.console className)]

def addConsole (className : String) (frames : Bool) : Assembling Unit := do
  let console := Library.console className
  let name ← request (ConstantPool.utf8 console.name)
  let descriptor ← request (ConstantPool.utf8 console.descriptor)
  let field := Member.make (Access.isPrivate ||| Access.isStatic ||| Access.isFinal) name descriptor []
  modify fun c => { c with fields := c.fields ++ [field] }
  let code ← buildCode [] frames (consoleCalls className)
  addMethod Access.isStatic "<clinit>" "()V" code

def addSourceFile (sourceFile : String) : Assembling Unit := do
  let attributeName ← request (ConstantPool.utf8 "SourceFile")
  let file ← request (ConstantPool.utf8 sourceFile)
  modify fun c => { c with attributes := c.attributes ++ [Attribute.make attributeName (Bytes.ofUInt16 file)] }

/-- Everything before `main`: the class, its constructor, and the type of the arguments. -/
def opening (className : String) (frames : Bool) : Except Fault (UInt16 × ClassFile) := do
  if !ClassName.isValid className then throw (.code (.invalidClassName className))
  match ClassFile.make (if frames then 52 else 49) className objectClass with
  | .error e => throw (.code (.pool e))
  | .ok c =>
    let work : Assembling UInt16 := do
      addConstructor frames
      request (ConstantPool.classRef argumentsClass)
    match work c with
    | .ok arguments c => return (arguments, c)
    | .error fault _ => throw fault

def closing (className : String) (options : Options) (code : MethodCode) (readsInput : Bool) : Assembling Unit := do
  addMethod (Access.isPublic ||| Access.isStatic) "main" mainDescriptor code
  if readsInput then addConsole className options.frames
  if let some sourceFile := options.sourceFile then addSourceFile sourceFile
  modify ClassFile.sync

/-- The class before it has its `main`, and the session in which the body of `main` has been compiled. -/
def compileMain (program : Program) (className : String) (options : Options) : Except Failure (ClassFile × Session) :=
  match opening className options.frames with
  | .error fault => .error ⟨fault, []⟩
  | .ok (arguments, c) =>
    let body := Body.start c.pool c.thisClass [.object arguments] options.frames
    match Session.compileProgram program ⟨className, options.policy, body, .empty, #[], false⟩ with
    | .error fault s => .error ⟨fault, s.notices.toList⟩
    | .ok _ s => .ok (c, s)

def ofProgram (program : Program) (className : String) (options : Options) : Except Failure Artifact :=
  match compileMain program className options with
  | .error failure => .error failure
  | .ok (c, s) =>
    let notices := s.notices.toList
    match s.body.finish with
    | .error fault => .error ⟨fault, notices⟩
    | .ok code =>
      match closing className options code s.readsInput { c with pool := s.body.pool } with
      | .ok _ c => .ok ⟨c, notices⟩
      | .error fault _ => .error ⟨fault, notices⟩

def ofText (text className : String) (options : Options) : Except Failure Artifact :=
  match Program.ofText text with
  | .ok program => ofProgram program className options
  | .error e => .error ⟨.parse e, []⟩

end Artifact

end KnightCode
