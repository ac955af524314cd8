import Mathlib.Data.List.Basic
import Mathlib.Tactic.Common

/-! Readers of bytes: one call fills a buffer of a given length with what it has at hand, which
may be less than what fits, and no bytes at all are the end of the stream. -/

namespace ByteReader

inductive ErrorKind where
  | interrupted
  | invalidData
  | other
  deriving DecidableEq, Repr

structure IoError where
  kind : ErrorKind
  message : String
  deriving DecidableEq, Repr

abbrev ReadResult := Except IoError (List UInt8)

/-- One call of `read` with a buffer of the given length. -/
abbrev Read (σ : Type) := σ → ℕ → ReadResult × σ

/-- A reader that serves the bytes of one stream in order. How many of them a call returns is its
own choice, as long as it fits and is not nothing before the end; a call that fails has read
nothing. `content` is what is still to be read. -/
structure Source (σ : Type) where
  read : Read σ
  content : σ → List UInt8
  read_ok : ∀ s len bs s', read s len = (.ok bs, s') →
    content s = bs ++ content s' ∧ bs.length ≤ len ∧ (0 < len → bs = [] → content s = [])
  read_error : ∀ s len e s', read s len = (.error e, s') → content s' = content s

/-- No call fails. -/
def Source.ErrorFree {σ : Type} (src : Source σ) : Prop :=
  ∀ s len, ∃ bs s', src.read s len = (.ok bs, s')

/-- A byte slice of which a call reads at most `most + 1` bytes. -/
def slice (most : ℕ) : Source (List UInt8) where
  read s len := (.ok (s.take (min len (most + 1))), s.drop (min len (most + 1)))
  content s := s
  read_ok s len bs s' h := by
    obtain ⟨hbs, rfl⟩ := Prod.mk.inj h
    obtain rfl := Except.ok.inj hbs
    refine ⟨(List.take_append_drop _ _).symm, by rw [List.length_take]; omega, fun hlen hnil => ?_⟩
    rcases List.take_eq_nil_iff.mp hnil with hzero | hnil
    · omega
    · exact hnil
  read_error s len e s' h := by cases h

theorem slice_errorFree (most : ℕ) : (slice most).ErrorFree := fun _ _ => ⟨_, _, rfl⟩

/-- At most `limit` more bytes of a reader. -/
structure Take (σ : Type) where
  inner : σ
  limit : ℕ

def takeRead {σ : Type} (read : Read σ) : Read (Take σ) := fun st len =>
  if st.limit = 0 then (.ok [], st)
  else
    match read st.inner (min len st.limit) with
    | (.ok bs, s') => (.ok bs, ⟨s', st.limit - bs.length⟩)
    | (.error e, s') => (.error e, ⟨s', st.limit⟩)

/-- The first bytes of a stream are a stream. -/
def Source.take {σ : Type} (src : Source σ) : Source (Take σ) where
  read := takeRead src.read
  content st := (src.content st.inner).take st.limit
  read_ok st len bs st' h := by
    unfold takeRead at h
    split at h
    · next hzero =>
      obtain ⟨hbs, rfl⟩ := Prod.mk.inj h
      obtain rfl := Except.ok.inj hbs
      simp [hzero]
    · next hpos =>
      split at h
      · next bs' s' hread =>
        obtain ⟨hbs, rfl⟩ := Prod.mk.inj h
        obtain rfl := Except.ok.inj hbs
        obtain ⟨hcontent, hlen, hend⟩ := src.read_ok _ _ _ _ hread
        refine ⟨?_, by omega, fun hlen' hnil => ?_⟩
        · rw [hcontent, List.take_append, List.take_of_length_le (by omega)]
        · rw [hend (by omega) hnil, List.take_nil]
      · cases h
  read_error st len e st' h := by
    unfold takeRead at h
    split at h
    · cases h
    · split at h
      · cases h
      · next e' s' hread =>
        obtain ⟨-, rfl⟩ := Prod.mk.inj h
        rw [src.read_error _ _ _ _ hread]

theorem Source.ErrorFree.take {σ : Type} {src : Source σ} (h : src.ErrorFree) :
    src.take.ErrorFree := by
  intro st len
  by_cases hzero : st.limit = 0
  · exact ⟨[], st, by simp [Source.take, takeRead, hzero]⟩
  · obtain ⟨bs, s', hread⟩ := h st.inner (min len st.limit)
    exact ⟨bs, ⟨s', st.limit - bs.length⟩, by simp [Source.take, takeRead, hzero, hread]⟩

/-- Read to the end of the stream. `len` is the length of the buffer that is free in each round,
and an interrupted call is made again. `none` is a loop that has not ended after `fuel` rounds. -/
def readToEnd {σ : Type} (read : Read σ) (len : ℕ → ℕ) : ℕ → σ → List UInt8 → Option ReadResult
  | 0, _, _ => none
  | fuel + 1, s, buf =>
    match read s (len fuel) with
    | (.ok [], _) => some (.ok buf)
    | (.ok (b :: bs), s') => readToEnd read len fuel s' (buf ++ b :: bs)
    | (.error e, s') =>
      if e.kind = .interrupted then readToEnd read len fuel s' buf else some (.error e)

/-- A stream is read whole in at most one round for each of its bytes and one for its end. -/
theorem readToEnd_eq {σ : Type} {src : Source σ} (herr : src.ErrorFree) {len : ℕ → ℕ}
    (hlen : ∀ i, 0 < len i) (fuel : ℕ) (s : σ) (buf : List UInt8)
    (hfuel : (src.content s).length < fuel) :
    readToEnd src.read len fuel s buf = some (.ok (buf ++ src.content s)) := by
  induction fuel generalizing s buf with
  | zero => omega
  | succ fuel ih =>
    obtain ⟨bs, s', hread⟩ := herr s (len fuel)
    obtain ⟨hcontent, -, hend⟩ := src.read_ok _ _ _ _ hread
    cases bs with
    | nil =>
      rw [hend (hlen fuel) rfl, List.append_nil]
      simp [readToEnd, hread]
    | cons b bs =>
      have hshort := congrArg List.length hcontent
      rw [List.length_append, List.length_cons] at hshort
      rw [readToEnd, hread, hcontent]
      show readToEnd src.read len fuel s' (buf ++ b :: bs) = _
      rw [ih s' _ (by omega), List.append_assoc]

end ByteReader
