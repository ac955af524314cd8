import ArtifactKeeper.Bytes
import Mathlib.Tactic.Linarith

/-! A reader of the Marshal 4.8 format: tagged values over numbers of a variable length, with a
table of the symbols met so far to which later ones may refer. -/

namespace ArtifactKeeper.Marshal

open Bytes

/-- What a stream says, before classes are looked up. -/
inductive Value where
  | nil
  | bool (b : Bool)
  | fixnum (n : ℤ)
  | symbol (name : List UInt8)
  | string (bytes : List UInt8)
  | array (items : List Value)
  | hash (pairs : List (Value × Value))
  | withIvars (object : Value) (ivars : List (List UInt8 × Value))
  | object (name : List UInt8) (ivars : List (List UInt8 × Value))
  | userMarshal (name : List UInt8) (data : Value)
  | userDefined (name : List UInt8) (payload : List UInt8)

/-- The bytes that are left, and the symbols met so far in order. -/
structure Stream where
  input : List UInt8
  symbols : List (List UInt8)

abbrev Reader := StateT Stream Option

inductive Tag where
  | nil | true | false | fixnum | symbol | symlink | string | array | hash | ivar | object
  | userMarshal | userDefined
  deriving DecidableEq, Repr

def Tag.ofByte (b : UInt8) : Option Tag :=
  [((0x30 : UInt8), Tag.nil), (0x54, .true), (0x46, .false), (0x69, .fixnum), (0x3a, .symbol),
    (0x3b, .symlink), (0x22, .string), (0x5b, .array), (0x7b, .hash), (0x49, .ivar),
    (0x6f, .object), (0x55, .userMarshal), (0x75, .userDefined)].lookup b

section Reading

def readByte : Reader UInt8 := fun s =>
  match s.input with
  | [] => none
  | b :: rest => some (b, { s with input := rest })

def readBytes (n : ℕ) : Reader (List UInt8) := fun s =>
  if n ≤ s.input.length then some (s.input.take n, { s with input := s.input.drop n }) else none

/-- A byte as a signed one. -/
def signed (b : UInt8) : ℤ := if b.toNat < 128 then b.toNat else b.toNat - 256

/-- `r_long`: the first byte is a small number by itself, five away from zero, or counts the bytes
that follow; the sign of the count is the sign of the number. -/
def readLong : Reader ℤ := do
  let c := signed (← readByte)
  if c = 0 then pure 0
  else if 4 < c then pure (c - 5)
  else if 0 < c then pure (ofLeBytes (← readBytes c.toNat))
  else if c < -4 then pure (c + 5)
  else pure (ofLeBytes (← readBytes (-c).toNat) - 256 ^ (-c).toNat)

def readCount : Reader ℕ := do
  let n ← readLong
  if n < 0 then failure else pure n.toNat

def readTag : Reader Tag := do
  match Tag.ofByte (← readByte) with
  | some tag => pure tag
  | none => failure

def readBlob : Reader (List UInt8) := do
  readBytes (← readCount)

def readMany {α : Type} (read : Reader α) : ℕ → Reader (List α)
  | 0 => pure []
  | n + 1 => do
    let x ← read
    let xs ← readMany read n
    pure (x :: xs)

/-- A symbol in full, which enters the table. -/
def readSymbolName : Reader (List UInt8) := do
  let name ← readBlob
  modify fun s => { s with symbols := s.symbols ++ [name] }
  pure name

/-- A reference into the table. -/
def readSymlink : Reader (List UInt8) := do
  let idx ← readCount
  match (← get).symbols[idx]? with
  | some name => pure name
  | none => failure

def readSymbol : Reader (List UInt8) := do
  match ← readTag with
  | .symbol => readSymbolName
  | .symlink => readSymlink
  | _ => failure

def readIvar (read : Reader Value) : Reader (List UInt8 × Value) := do
  let name ← readSymbol
  let value ← read
  pure (name, value)

def readPair (read : Reader Value) : Reader (Value × Value) := do
  let key ← read
  let value ← read
  pure (key, value)

/-- The rest of a value behind its tag, whose parts are read by `read`. -/
def readTagged (read : Reader Value) : Tag → Reader Value
  | .nil => pure .nil
  | .true => pure (.bool true)
  | .false => pure (.bool false)
  | .fixnum => .fixnum <$> readLong
  | .symbol => .symbol <$> readSymbolName
  | .symlink => .symbol <$> readSymlink
  | .string => .string <$> readBlob
  | .array => do
    let n ← readCount
    .array <$> readMany read n
  | .hash => do
    let n ← readCount
    .hash <$> readMany (readPair read) n
  | .ivar => do
    let object ← read
    let n ← readCount
    .withIvars object <$> readMany (readIvar read) n
  | .object => do
    let name ← readSymbol
    let n ← readCount
    .object name <$> readMany (readIvar read) n
  | .userMarshal => do
    let name ← readSymbol
    .userMarshal name <$> read
  | .userDefined => do
    let name ← readSymbol
    .userDefined name <$> readBlob

/-- `r_object`: one value, nested at most `depth` deep. -/
def readObject : ℕ → Reader Value
  | 0 => failure
  | depth + 1 => do
    let tag ← readTag
    readTagged (readObject depth) tag

/-- The value of a whole stream after its two version bytes, and what is left behind it. No value
nests deeper than it has bytes. -/
def load (bytes : List UInt8) : Option (Value × List UInt8) :=
  match bytes with
  | 0x04 :: 0x08 :: input =>
    ((readObject bytes.length).run ⟨input, []⟩).map fun r => (r.1, r.2.input)
  | _ => none

end Reading

section Rules

variable {α β : Type} {t t' t'' : List (List UInt8)}

/-- On a stream that goes on with `bytes`, `read` takes exactly them, whatever follows, and the
table grows from `t` to `t'`. -/
def Reads (t : List (List UInt8)) (read : Reader α) (bytes : List UInt8)
    (t' : List (List UInt8)) (a : α) : Prop :=
  ∀ rest, read.run ⟨bytes ++ rest, t⟩ = some (a, ⟨rest, t'⟩)

theorem Reads.pure (a : α) : Reads t (pure a) [] t a := fun _ => rfl

theorem Reads.bind {read : Reader α} {next : α → Reader β} {bs bs' : List UInt8} {a : α} {b : β}
    (h : Reads t read bs t' a) (h' : Reads t' (next a) bs' t'' b) :
    Reads t (read >>= next) (bs ++ bs') t'' b := by
  intro rest
  rw [StateT.run_bind, List.append_assoc, h]
  exact h' rest

/-- A step after which nothing more is taken. -/
theorem Reads.bind_nil {read : Reader α} {next : α → Reader β} {bs : List UInt8} {a : α} {b : β}
    (h : Reads t read bs t' a) (h' : Reads t' (next a) [] t'' b) :
    Reads t (read >>= next) bs t'' b := by
  rw [← List.append_nil bs]
  exact h.bind h'

theorem Reads.map {read : Reader α} {bs : List UInt8} {a : α} (f : α → β)
    (h : Reads t read bs t' a) : Reads t (f <$> read) bs t' (f a) := by
  intro rest
  rw [StateT.run_map, h]
  rfl

theorem Reads.byte (b : UInt8) : Reads t readByte [b] t b := fun _ => rfl

theorem Reads.bytes (bs : List UInt8) : Reads t (readBytes bs.length) bs t bs := by
  intro rest
  show (if bs.length ≤ (bs ++ rest).length then
    some ((bs ++ rest).take bs.length, Stream.mk ((bs ++ rest).drop bs.length) t) else none) =
    some (bs, ⟨rest, t⟩)
  rw [if_pos (by simp), List.take_left, List.drop_left]

theorem Reads.tag {b : UInt8} {tag : Tag} (h : Tag.ofByte b = some tag) :
    Reads t readTag [b] t tag := by
  apply (Reads.byte b).bind_nil
  rw [h]
  exact Reads.pure tag

/-- A number that the first byte holds by itself. -/
theorem Reads.long_small {b : UInt8} {n : ℤ} (h : signed b = 0 ∧ n = 0 ∨
    4 < signed b ∧ n = signed b - 5 ∨ signed b < -4 ∧ n = signed b + 5) :
    Reads t readLong [b] t n := by
  apply (Reads.byte b).bind_nil
  obtain ⟨hb, rfl⟩ | ⟨hb, rfl⟩ | ⟨hb, rfl⟩ := h
  · rw [if_pos hb]
    exact Reads.pure 0
  · rw [if_neg (by omega), if_pos hb]
    exact Reads.pure _
  · rw [if_neg (by omega), if_neg (by omega), if_neg (by omega), if_pos hb]
    exact Reads.pure _

theorem Reads.long_positive {b : UInt8} {bs : List UInt8} (hb : signed b = bs.length)
    (hpos : 0 < bs.length) (hle : bs.length ≤ 4) : Reads t readLong (b :: bs) t (ofLeBytes bs) := by
  rw [← List.singleton_append]
  apply (Reads.byte b).bind
  rw [if_neg (by omega), if_neg (by omega), if_pos (by omega), hb, Int.toNat_natCast]
  exact (Reads.bytes bs).bind_nil (Reads.pure _)

theorem Reads.long_negative {b : UInt8} {bs : List UInt8} (hb : signed b = -bs.length)
    (hpos : 0 < bs.length) (hle : bs.length ≤ 4) :
    Reads t readLong (b :: bs) t (ofLeBytes bs - 256 ^ bs.length) := by
  rw [← List.singleton_append]
  apply (Reads.byte b).bind
  rw [if_neg (by omega), if_neg (by omega), if_neg (by omega), if_neg (by omega), hb, neg_neg,
    Int.toNat_natCast]
  exact (Reads.bytes bs).bind_nil (Reads.pure _)

theorem Reads.count {bs : List UInt8} {n : ℕ} (h : Reads t readLong bs t' n) :
    Reads t readCount bs t' n := by
  apply h.bind_nil
  rw [if_neg (by omega), Int.toNat_natCast]
  exact Reads.pure n

theorem Reads.blob {bs name : List UInt8} (h : Reads t readCount bs t' name.length) :
    Reads t readBlob (bs ++ name) t' name :=
  h.bind (Reads.bytes name)

theorem Reads.symbolName {bs name : List UInt8} (h : Reads t readCount bs t name.length) :
    Reads t readSymbolName (bs ++ name) (t ++ [name]) name := by
  apply h.blob.bind_nil
  exact fun _ => rfl

theorem Reads.symlink {bs name : List UInt8} {idx : ℕ} (h : Reads t readCount bs t idx)
    (hidx : t[idx]? = some name) : Reads t readSymlink bs t name := by
  apply h.bind_nil
  intro rest
  show StateT.run (match t[idx]? with
    | some name => Pure.pure name
    | none => failure) _ = _
  rw [hidx]
  rfl

theorem Reads.object {bs : List UInt8} {b : UInt8} {tag : Tag} {depth : ℕ} {v : Value}
    (htag : Tag.ofByte b = some tag) (h : Reads t (readTagged (readObject depth) tag) bs t' v) :
    Reads t (readObject (depth + 1)) (b :: bs) t' v :=
  (Reads.tag htag).bind h

theorem bind_run_eq_some {read : Reader α} {next : α → Reader β} {s s' : Stream} {b : β}
    (h : (read >>= next).run s = some (b, s')) :
    ∃ a s₁, read.run s = some (a, s₁) ∧ (next a).run s₁ = some (b, s') := by
  rw [StateT.run_bind, Option.bind_eq_bind, Option.bind_eq_some_iff] at h
  obtain ⟨⟨a, s₁⟩, hread, hnext⟩ := h
  exact ⟨a, s₁, hread, hnext⟩

theorem map_run_eq_some {read : Reader α} {f : α → β} {s s' : Stream} {b : β}
    (h : (f <$> read).run s = some (b, s')) : ∃ a, read.run s = some (a, s') ∧ f a = b := by
  rw [StateT.run_map] at h
  obtain ⟨⟨a, s₁⟩, hread, heq⟩ := Option.map_eq_some_iff.mp h
  obtain ⟨hb, rfl⟩ := Prod.mk.inj heq
  exact ⟨a, hread, hb⟩

theorem readMany_length {read : Reader α} {n : ℕ} {s s' : Stream} {xs : List α}
    (h : (readMany read n).run s = some (xs, s')) : xs.length = n := by
  induction n generalizing s s' xs with
  | zero =>
    obtain ⟨rfl, -⟩ := Prod.mk.inj (Option.some.inj h)
    rfl
  | succ n ih =>
    obtain ⟨x, s₁, -, h⟩ := bind_run_eq_some h
    obtain ⟨ys, s₂, hys, h⟩ := bind_run_eq_some h
    obtain ⟨rfl, -⟩ := Prod.mk.inj (Option.some.inj h)
    rw [List.length_cons, ih hys]

theorem readBytes_eq_some {n : ℕ} {s s' : Stream} {bs : List UInt8}
    (h : (readBytes n).run s = some (bs, s')) : bs.length = n ∧ s'.input = s.input.drop n := by
  change (if n ≤ s.input.length then _ else _) = _ at h
  split_ifs at h with hn
  obtain ⟨rfl, rfl⟩ := Prod.mk.inj (Option.some.inj h)
  exact ⟨List.length_take_of_le hn, rfl⟩

/-- Four bytes are the most that follow the first one. -/
theorem readLong_lt {s s' : Stream} {n : ℤ} (h : readLong.run s = some (n, s')) : n < 2 ^ 32 := by
  obtain ⟨b, s₁, -, h⟩ := bind_run_eq_some h
  have hb : b.toNat < 256 := b.toNat_lt
  have hc : signed b < 128 := by
    rw [signed]
    split_ifs <;> omega
  dsimp only at h
  split_ifs at h with hzero hsmall hpos hneg
  · obtain ⟨rfl, -⟩ := Prod.mk.inj (Option.some.inj h)
    norm_num
  · obtain ⟨rfl, -⟩ := Prod.mk.inj (Option.some.inj h)
    omega
  · obtain ⟨bs, s₂, hbs, h⟩ := bind_run_eq_some h
    obtain ⟨rfl, -⟩ := Prod.mk.inj (Option.some.inj h)
    have hlength := (readBytes_eq_some hbs).1
    have hlt : ofLeBytes bs < 256 ^ 4 :=
      lt_of_lt_of_le (ofLeBytes_lt bs) (Nat.pow_le_pow_right (by norm_num) (by omega))
    norm_num at hlt ⊢
    omega
  · obtain ⟨rfl, -⟩ := Prod.mk.inj (Option.some.inj h)
    omega
  · obtain ⟨bs, s₂, hbs, h⟩ := bind_run_eq_some h
    obtain ⟨rfl, -⟩ := Prod.mk.inj (Option.some.inj h)
    have hlt : ofLeBytes bs < 256 ^ (-signed b).toNat := (readBytes_eq_some hbs).1 ▸ ofLeBytes_lt bs
    have hneg : ((ofLeBytes bs : ℤ)) < 256 ^ (-signed b).toNat := by exact_mod_cast hlt
    linarith

theorem readCount_lt {s s' : Stream} {n : ℕ} (h : readCount.run s = some (n, s')) : n < 2 ^ 32 := by
  obtain ⟨k, s₁, hlong, h⟩ := bind_run_eq_some h
  have hk := readLong_lt hlong
  split_ifs at h with hneg
  · contradiction
  · obtain ⟨rfl, -⟩ := Prod.mk.inj (Option.some.inj h)
    omega

/-- An array that is read has fewer items than the widest number counts. -/
theorem length_lt_of_load {input rest : List UInt8} {items : List Value}
    (h : load (0x04 :: 0x08 :: 0x5b :: input) = some (.array items, rest)) :
    items.length < 2 ^ 32 := by
  obtain ⟨⟨v, s⟩, hread, hv⟩ := Option.map_eq_some_iff.mp h
  obtain ⟨rfl, -⟩ := Prod.mk.inj hv
  obtain ⟨tag, s₁, htag, hread⟩ := bind_run_eq_some hread
  obtain ⟨rfl, rfl⟩ := Prod.mk.inj (Option.some.inj htag)
  obtain ⟨n, s₂, hcount, hread⟩ := bind_run_eq_some hread
  obtain ⟨xs, hmany, hxs⟩ := map_run_eq_some hread
  obtain rfl := Value.array.inj hxs
  rw [readMany_length hmany]
  exact readCount_lt hcount

end Rules

end ArtifactKeeper.Marshal
