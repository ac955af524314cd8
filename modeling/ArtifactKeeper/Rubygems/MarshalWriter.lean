import ArtifactKeeper.Marshal
import ArtifactKeeper.Text

/-! The writer of the legacy index and of the quick gemspecs, in Marshal 4.8. -/

namespace ArtifactKeeper.Rubygems

open Bytes Marshal Text

section Writer

/-- `x as u8`. -/
def lowByte (x : ℤ) : UInt8 := UInt8.ofNat (x % 256).toNat

/-- The loop of `write_long` with `left` more places in its buffer: the bytes it fills in, and
whether it stops at the sign of a negative number. -/
def longLoop : ℕ → ℤ → Bool × List UInt8
  | 0, x => (x >>> (8 : ℕ) == -1, [lowByte x])
  | left + 1, x =>
    if x >>> (8 : ℕ) = 0 then (false, [lowByte x])
    else if x >>> (8 : ℕ) = -1 then (true, [lowByte x])
    else
      let (negative, bytes) := longLoop left (x >>> (8 : ℕ))
      (negative, lowByte x :: bytes)

/-- The bytes that `write_long` adds. A length below `2 ^ 63`, as every `Vec` has one, is the same
number as an `i64`. -/
def longBytes (n : ℤ) : List UInt8 :=
  if n = 0 then [0]
  else if 1 ≤ n ∧ n < 123 then [lowByte (n + 5)]
  else if -123 ≤ n ∧ n < 0 then [lowByte (n - 5)]
  else
    let (negative, bytes) := longLoop 7 n
    lowByte (if negative then -(bytes.length : ℤ) else bytes.length) :: bytes

/-- `MarshalWriter`, in which every symbol stands once. -/
structure MarshalWriter where
  out : List UInt8
  symbols : List String
  nodup : symbols.Nodup

namespace MarshalWriter

def new : MarshalWriter := ⟨[0x04, 0x08], [], List.nodup_nil⟩

def extend (w : MarshalWriter) (bytes : List UInt8) : MarshalWriter :=
  { w with out := w.out ++ bytes }

def push (w : MarshalWriter) (b : UInt8) : MarshalWriter := w.extend [b]

def writeLong (w : MarshalWriter) (n : ℤ) : MarshalWriter := w.extend (longBytes n)

def writeSymbol (w : MarshalWriter) (sym : String) : MarshalWriter :=
  if h : sym ∈ w.symbols then (w.push 0x3b).writeLong (w.symbols.idxOf sym)
  else
    { ((w.push 0x3a).writeLong (utf8 sym).length).extend (utf8 sym) with
      symbols := w.symbols ++ [sym]
      nodup := List.nodup_append.mpr ⟨w.nodup, List.pairwise_singleton _ sym, by
        rintro a ha _ hb rfl
        exact h (List.mem_singleton.mp hb ▸ ha)⟩ }

def writeUtf8String (w : MarshalWriter) (s : String) : MarshalWriter :=
  let w := (((w.push 0x49).push 0x22).writeLong (utf8 s).length).extend (utf8 s)
  ((w.writeLong 1).writeSymbol "E").push 0x54

def writeGemVersion (w : MarshalWriter) (version : String) : MarshalWriter :=
  ((((w.push 0x55).writeSymbol "Gem::Version").push 0x5b).writeLong 1).writeUtf8String version

def writeNil (w : MarshalWriter) : MarshalWriter := w.push 0x30

def writeBool (w : MarshalWriter) (b : Bool) : MarshalWriter := w.push (if b then 0x54 else 0x46)

def writeFixnum (w : MarshalWriter) (n : ℤ) : MarshalWriter := (w.push 0x69).writeLong n

def writeArrayHeader (w : MarshalWriter) (len : ℕ) : MarshalWriter := (w.push 0x5b).writeLong len

def writeEmptyHash (w : MarshalWriter) : MarshalWriter := (w.push 0x7b).writeLong 0

def writeGemRequirement (w : MarshalWriter) (constraints : List (String × String)) :
    MarshalWriter :=
  let w := ((w.push 0x55).writeSymbol "Gem::Requirement").writeArrayHeader 1
  constraints.foldl
    (fun w c => ((w.writeArrayHeader 2).writeUtf8String c.1).writeGemVersion c.2)
    (w.writeArrayHeader constraints.length)

def writeGemDependency (w : MarshalWriter) (name : String) (constraints : List (String × String))
    (dev : Bool) : MarshalWriter :=
  let w := ((w.push 0x6f).writeSymbol "Gem::Dependency").writeLong 5
  let w := (w.writeSymbol "@name").writeUtf8String name
  let w := (w.writeSymbol "@requirement").writeGemRequirement constraints
  let w := (w.writeSymbol "@type").writeSymbol (if dev then "development" else "runtime")
  let w := (w.writeSymbol "@prerelease").writeBool false
  (w.writeSymbol "@version_requirements").writeGemRequirement constraints

end MarshalWriter

end Writer

section Documents

/-- The operators of a requirement, the longer ones first. -/
def operators : List String := ["<=", ">=", "!=", "~>", "=", "<", ">"]

/-- One part of a requirement between commas. -/
def parseConstraint (part : List Char) : Option (String × String) :=
  let p := trim part
  if p.isEmpty then none
  else
    match operators.findSome? fun op => (stripPrefix op.toList p).map (op, ·) with
    | some (op, rest) => some (op, String.ofList (trim rest))
    | none => some ("=", String.ofList p)

def parseRequirementConstraints (req : String) : List (String × String) :=
  let constraints := (req.toList.splitOn ',').filterMap parseConstraint
  if constraints.isEmpty then [(">=", "0")] else constraints

structure GemDependency where
  name : String
  requirements : String
  depType : String

structure GemSpec where
  name : String
  version : String
  platform : Option String
  authors : Option (List String)
  summary : Option String
  requiredRubyVersion : Option String
  dependencies : Option (List GemDependency)

def GemSpec.requiredRuby (spec : GemSpec) : List (String × String) :=
  (spec.requiredRubyVersion.map parseRequirementConstraints).getD [(">=", "0")]

def GemDependency.dev (dep : GemDependency) : Bool :=
  eqIgnoreAsciiCase dep.depType.toList "development".toList

/-- The field array inside of `marshal_quick_spec`. -/
def marshalFields (spec : GemSpec) : MarshalWriter :=
  let inner := MarshalWriter.new.writeArrayHeader 19
  let inner := (inner.writeUtf8String "3.0.0").writeFixnum 4
  let inner := ((inner.writeUtf8String spec.name).writeGemVersion spec.version).writeNil
  let inner := inner.writeUtf8String (spec.summary.getD "")
  let inner := inner.writeGemRequirement spec.requiredRuby
  let inner := (inner.writeGemRequirement [(">=", "0")]).writeNil
  let deps := spec.dependencies.getD []
  let inner := deps.foldl
    (fun inner dep => inner.writeGemDependency dep.name
      (parseRequirementConstraints dep.requirements) dep.dev)
    (inner.writeArrayHeader deps.length)
  let inner := (inner.writeUtf8String "").writeNil
  let authors := spec.authors.getD []
  let inner := authors.foldl MarshalWriter.writeUtf8String (inner.writeArrayHeader authors.length)
  let inner := (inner.writeNil.writeNil).writeBool true
  let inner := inner.writeUtf8String (spec.platform.getD "ruby")
  (inner.writeArrayHeader 0).writeEmptyHash

def marshalQuickSpec (spec : GemSpec) : List UInt8 :=
  let innerBytes := (marshalFields spec).out
  let outer := (MarshalWriter.new.push 0x75).writeSymbol "Gem::Specification"
  ((outer.writeLong innerBytes.length).extend innerBytes).out

def marshalSpecsIndex (specs : List (String × String × String)) : List UInt8 :=
  let w := (MarshalWriter.new.push 0x5b).writeLong specs.length
  (specs.foldl (fun w spec =>
    ((((w.push 0x5b).writeLong 3).writeUtf8String spec.1).writeGemVersion spec.2.1).writeUtf8String
      spec.2.2) w).out

end Documents

end ArtifactKeeper.Rubygems
