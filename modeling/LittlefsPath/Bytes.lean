/-
Byte-level vocabulary of `path.rs`.  A `&[u8]` or a `&str` is modelled by the
list of its bytes.  Path content is ASCII, and the separator is an ASCII byte,
so the `str` searches for `'/'` made by the iterators are searches for the byte
`b'/'`.  The characterisation lemmas at the end turn every search into a
decomposition `x ++ slash :: y`, the only form the later modules reason about.
-/
import Mathlib.Data.List.Basic

namespace LittlefsPath

variable {α : Type}

/-- The separator `b'/'`. -/
def slash : UInt8 := 47

/-- `u8::is_ascii`. -/
def isAsciiByte (b : UInt8) : Bool := decide (b < 128)

/-- `<[u8]>::is_ascii`. -/
def isAscii (bytes : List UInt8) : Bool := bytes.all isAsciiByte

@[simp] theorem isAscii_nil : isAscii [] = true := rfl

@[simp] theorem isAscii_cons (b : UInt8) (bytes : List UInt8) :
    isAscii (b :: bytes) = (isAsciiByte b && isAscii bytes) := rfl

@[simp] theorem isAscii_append (xs ys : List UInt8) :
    isAscii (xs ++ ys) = (isAscii xs && isAscii ys) := List.all_append

@[simp] theorem isAsciiByte_slash : isAsciiByte slash = true := rfl

@[simp] theorem isAsciiByte_zero : isAsciiByte 0 = true := rfl

@[simp] theorem slash_ne_zero : slash ≠ 0 := by decide

@[simp] theorem zero_ne_slash : 0 ≠ slash := by decide

/-- `Iterator::rposition` over a slice: the index of the last element
satisfying `p`. -/
def rposition (p : α → Bool) : List α → Option Nat
  | [] => none
  | a :: l =>
      match rposition p l with
      | some i => some (i + 1)
      | none => if p a then some 0 else none

/-- `str::split_once(c)`: the parts before and after the first `c`. -/
def splitOnce (c : UInt8) : List UInt8 → Option (List UInt8 × List UInt8)
  | [] => none
  | b :: l =>
      if b = c then some ([], l)
      else (splitOnce c l).map fun parts => (b :: parts.1, parts.2)

/-- `str::rsplit_once(c)`: the parts before and after the last `c`. -/
def rsplitOnce (c : UInt8) (s : List UInt8) : Option (List UInt8 × List UInt8) :=
  (rposition (· == c) s).map fun i => (s.take i, s.drop (i + 1))

theorem rposition_eq_none_iff {p : α → Bool} {l : List α} :
    rposition p l = none ↔ ∀ a ∈ l, p a = false := by
  induction l with
  | nil => simp [rposition]
  | cons a l ih =>
      simp only [rposition, List.mem_cons, forall_eq_or_imp]
      cases h : rposition p l with
      | some i => simp_all
      | none => cases p a <;> simp_all

theorem rposition_append_cons {p : α → Bool} (pre : List α) {a : α}
    {post : List α} (ha : p a = true) (hpost : ∀ x ∈ post, p x = false) :
    rposition p (pre ++ a :: post) = some pre.length := by
  induction pre with
  | nil =>
      have hnone : rposition p post = none := rposition_eq_none_iff.2 hpost
      simp [rposition, hnone, ha]
  | cons b pre ih => simp [rposition, ih]

theorem rposition_eq_some {p : α → Bool} {l : List α} {i : Nat}
    (h : rposition p l = some i) :
    ∃ pre a post, l = pre ++ a :: post ∧ p a = true ∧
      (∀ x ∈ post, p x = false) ∧ i = pre.length := by
  induction l generalizing i with
  | nil => simp [rposition] at h
  | cons b l ih =>
      simp only [rposition] at h
      cases hl : rposition p l with
      | some j =>
          obtain ⟨pre, a, post, rfl, ha, hpost, rfl⟩ := ih hl
          rw [hl] at h
          exact ⟨b :: pre, a, post, rfl, ha, hpost, by simpa using h.symm⟩
      | none =>
          rw [hl] at h
          split_ifs at h with hb
          cases h
          exact ⟨[], b, l, rfl, hb, rposition_eq_none_iff.1 hl, rfl⟩

theorem rposition_slash_append_cons (x : List UInt8) {y : List UInt8} (hy : slash ∉ y) :
    rposition (· == slash) (x ++ slash :: y) = some x.length :=
  rposition_append_cons x (beq_self_eq_true slash)
    fun _ hz => beq_false_of_ne fun h => hy (h ▸ hz)

theorem rsplitOnce_eq_none_iff {c : UInt8} {s : List UInt8} :
    rsplitOnce c s = none ↔ c ∉ s := by
  simp only [rsplitOnce, Option.map_eq_none', rposition_eq_none_iff, beq_eq_false_iff_ne]
  exact ⟨fun h hc => h c hc rfl, fun h a ha hac => h (hac ▸ ha)⟩

theorem rsplitOnce_eq_some_iff {c : UInt8} {s x y : List UInt8} :
    rsplitOnce c s = some (x, y) ↔ s = x ++ c :: y ∧ c ∉ y := by
  constructor
  · intro h
    obtain ⟨i, hi, hxy⟩ := Option.map_eq_some'.1 h
    obtain ⟨pre, a, post, rfl, ha, hpost, rfl⟩ := rposition_eq_some hi
    obtain rfl : a = c := by simpa using ha
    have hdrop : (pre ++ a :: post).drop (pre.length + 1) = post := by
      simp [List.drop_append_eq_append_drop]
    simp only [List.take_left', hdrop, Prod.mk.injEq] at hxy
    obtain ⟨rfl, rfl⟩ := hxy
    exact ⟨rfl, fun hmem => by simpa using hpost a hmem⟩
  · rintro ⟨rfl, hy⟩
    have hpost : ∀ z ∈ y, (z == c) = false :=
      fun z hz => beq_false_of_ne fun h => hy (h ▸ hz)
    have hpos := @rposition_append_cons _ (· == c) x c y (beq_self_eq_true c) hpost
    simp only [rsplitOnce, hpos, Option.map_some', Option.some.injEq, Prod.mk.injEq]
    exact ⟨List.take_left' rfl, by simp⟩

theorem splitOnce_eq_none_iff {c : UInt8} {s : List UInt8} :
    splitOnce c s = none ↔ c ∉ s := by
  induction s with
  | nil => simp [splitOnce]
  | cons b s ih =>
      by_cases hb : b = c
      · simp [splitOnce, hb]
      · simp [splitOnce, hb, ih, Ne.symm hb]

theorem splitOnce_append_cons {c : UInt8} {x : List UInt8} (hx : c ∉ x)
    (y : List UInt8) : splitOnce c (x ++ c :: y) = some (x, y) := by
  induction x with
  | nil => simp [splitOnce]
  | cons a x ih =>
      have ha : a ≠ c := fun h => hx (h ▸ List.mem_cons_self a x)
      simp [splitOnce, ha, ih (fun h => hx (List.mem_cons_of_mem a h))]

theorem splitOnce_eq_some {c : UInt8} {s x y : List UInt8}
    (h : splitOnce c s = some (x, y)) : s = x ++ c :: y ∧ c ∉ x := by
  induction s generalizing x with
  | nil => simp [splitOnce] at h
  | cons b s ih =>
      by_cases hb : b = c
      · simp only [splitOnce, hb, if_true, Option.some.injEq, Prod.mk.injEq] at h
        obtain ⟨rfl, rfl⟩ := h
        simp [hb]
      · simp only [splitOnce, hb, if_false] at h
        cases hs : splitOnce c s with
        | none => simp [hs] at h
        | some parts =>
            simp only [hs, Option.map_some', Option.some.injEq, Prod.mk.injEq] at h
            obtain ⟨rfl, rfl⟩ := h
            obtain ⟨rfl, hx⟩ := ih hs
            exact ⟨rfl, by simp [Ne.symm hb, hx]⟩

theorem splitOnce_eq_some_iff {c : UInt8} {s x y : List UInt8} :
    splitOnce c s = some (x, y) ↔ s = x ++ c :: y ∧ c ∉ x :=
  ⟨splitOnce_eq_some, fun ⟨hs, hx⟩ => hs ▸ splitOnce_append_cons hx y⟩

end LittlefsPath
