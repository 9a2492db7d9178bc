import KnightCode.Bytes

/-!
# Frames

The types that a method's local variables and operand stack have at a branch target, and the table that stores them.
A stored entry says how a frame differs from the one before it. Locals of type `top` at the end of a frame are left
out.
-/

namespace KnightCode

inductive VerificationType
  | top
  | integer
  | null
  | uninitializedThis
  /-- An object of the class that a constant names. -/
  | object (index : UInt16)
  /-- The result of the `new` at an address, before its constructor has run. -/
  | uninitialized (address : UInt16)
  deriving DecidableEq, Repr, Inhabited

namespace VerificationType

def isReference : VerificationType → Bool
  | .top | .integer => false
  | _ => true

def bytes : VerificationType → Bytes
  | .top => [0]
  | .integer => [1]
  | .null => [5]
  | .uninitializedThis => [6]
  | .object index => 7 :: Bytes.ofUInt16 index
  | .uninitialized address => 8 :: Bytes.ofUInt16 address

end VerificationType

structure Frame where
  address : Nat
  locals : List VerificationType
  stack : List VerificationType
  deriving DecidableEq, Repr

/-- How a frame is stored. A `delta` counts the bytes between this frame and the one before it. -/
inductive FrameEntry
  | same (delta : UInt16)
  | sameOneItem (delta : UInt16) (item : VerificationType)
  | sameOneItemFar (delta : UInt16) (item : VerificationType)
  | chop (count : Nat) (delta : UInt16)
  | sameFar (delta : UInt16)
  | append (delta : UInt16) (locals : List VerificationType)
  | full (delta : UInt16) (locals stack : List VerificationType)
  deriving DecidableEq, Repr

namespace FrameEntry

def tag : FrameEntry → UInt8
  | .same delta => delta.toUInt8
  | .sameOneItem delta _ => 64 + delta.toUInt8
  | .sameOneItemFar .. => 247
  | .chop count _ => 251 - count.toUInt8
  | .sameFar _ => 251
  | .append _ locals => 251 + locals.length.toUInt8
  | .full .. => 255

def payload : FrameEntry → Bytes
  | .same _ => []
  | .sameOneItem _ item => item.bytes
  | .sameOneItemFar delta item => Bytes.ofUInt16 delta ++ item.bytes
  | .chop _ delta => Bytes.ofUInt16 delta
  | .sameFar delta => Bytes.ofUInt16 delta
  | .append delta locals => Bytes.ofUInt16 delta ++ locals.flatMap VerificationType.bytes
  | .full delta locals stack =>
    Bytes.ofUInt16 delta ++
      (Bytes.ofUInt16 locals.length.toUInt16 ++ locals.flatMap VerificationType.bytes ++
        (Bytes.ofUInt16 stack.length.toUInt16 ++ stack.flatMap VerificationType.bytes))

def bytes (e : FrameEntry) : Bytes := e.tag :: e.payload

/-- Stores a frame after one with the locals `before`: the shortest form that fits. -/
def ofFrame (before : List VerificationType) (delta : UInt16) (frame : Frame) : FrameEntry :=
  match frame.stack with
  | [] =>
    if before = frame.locals then
      if delta ≤ 63 then .same delta else .sameFar delta
    else
      let more := frame.locals.length - before.length
      let fewer := before.length - frame.locals.length
      if 1 ≤ more && more ≤ 3 && before.isPrefixOf frame.locals then
        .append delta (frame.locals.drop before.length)
      else if 1 ≤ fewer && fewer ≤ 3 && frame.locals.isPrefixOf before then .chop fewer delta
      else .full delta frame.locals []
  | [item] =>
    if before = frame.locals then
      if delta ≤ 63 then .sameOneItem delta item else .sameOneItemFar delta item
    else .full delta frame.locals [item]
  | stack => .full delta frame.locals stack

end FrameEntry

namespace Frame

def trim (locals : List VerificationType) : List VerificationType :=
  (locals.reverse.dropWhile (· = .top)).reverse

/-- Of the frames at one address, which stand together, keeps the last. -/
def lastPerAddress (frames : List Frame) : List Frame :=
  frames.foldr (fun frame kept =>
    match kept with
    | next :: _ => if frame.address = next.address then kept else frame :: kept
    | [] => [frame]) []

/-- The frames to store: trimmed, in the order of their addresses, one for each address. A later record at an address
replaces an earlier one. -/
def toStore (records : List Frame) : List Frame :=
  lastPerAddress
    ((records.map fun r => { r with locals := trim r.locals }).mergeSort fun a b => a.address ≤ b.address)

/-- The table of the recorded frames of a method that starts with the locals `entry`. There is none if nothing was
recorded. The first delta is the address itself; each later one leaves out one more byte. -/
def table? (entry : List VerificationType) (records : List Frame) : Option (List FrameEntry) :=
  if records.isEmpty then none
  else
    let frames := toStore records
    let before := (0, trim entry) :: frames.map fun f => (f.address + 1, f.locals)
    some (List.zipWith (fun (start, locals) f => .ofFrame locals (f.address - start).toUInt16 f) before frames)

def tableBytes (entries : List FrameEntry) : Bytes :=
  Bytes.ofUInt16 entries.length.toUInt16 ++ entries.flatMap FrameEntry.bytes

end Frame

end KnightCode
