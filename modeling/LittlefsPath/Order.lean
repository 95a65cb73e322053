/-
The two orders on paths.  `cmp_str` is the order of `CStr`, the slice order on
the contents; `cmp_lfs` is the order in which littlefs lists a directory, and
puts the longer of two paths first when one is a prefix of the other.  Both
are read through one reference order, the lexicographic order on byte values:
`cmp_lfs` is that order once every content is followed by a terminator that
sorts after every byte.
-/
import LittlefsPath.Path

namespace LittlefsPath

/-- `<[T] as Ord>::cmp`: elementwise, a proper prefix first. -/
def sliceCmp {α : Type} [Ord α] : List α → List α → Ordering
  | [], [] => .eq
  | [], _ :: _ => .lt
  | _ :: _, [] => .gt
  | x :: xs, y :: ys => (compare x y).then (sliceCmp xs ys)

/-- `Path::cmp_str`: the order of `CStr`, which compares the contents. -/
def Path.cmpStr (self other : Path) : Ordering := sliceCmp self.bytes other.bytes

/-- `Path::cmp_lfs`. -/
def Path.cmpLfs (self other : Path) : Ordering :=
  let this := self.bytes
  let other := other.bytes
  let minLen := min this.length other.length
  match sliceCmp (this.take minLen) (other.take minLen) with
  | .lt => .lt
  | .gt => .gt
  | .eq => compare other.length this.length

/-- The key of a content under `cmp_lfs`: its byte values and a terminator
above every byte. -/
def lfsKey (bytes : List UInt8) : List Nat := bytes.map UInt8.toNat ++ [256]

/-- `a` is a strict byte-prefix of `b`. -/
def Path.IsStrictPrefix (a b : Path) : Prop := a.bytes <+: b.bytes ∧ a.bytes ≠ b.bytes

section Lex

@[simp] theorem sliceCmp_cons_cons {α : Type} [Ord α] (x y : α) (xs ys : List α) :
    sliceCmp (x :: xs) (y :: ys) = (compare x y).then (sliceCmp xs ys) := rfl

@[simp] theorem eq_then (o : Ordering) : Ordering.eq.then o = o := rfl

theorem then_eq_eq {o₁ o₂ : Ordering} : o₁.then o₂ = .eq ↔ o₁ = .eq ∧ o₂ = .eq := by
  cases o₁ <;> simp [Ordering.then]

theorem then_swap (o₁ o₂ : Ordering) : (o₁.then o₂).swap = o₁.swap.then o₂.swap := by
  cases o₁ <;> rfl

theorem sliceCmp_eq_eq_iff {xs ys : List Nat} : sliceCmp xs ys = .eq ↔ xs = ys := by
  induction xs generalizing ys with
  | nil => cases ys <;> simp [sliceCmp]
  | cons x xs ih => cases ys <;> simp [sliceCmp, then_eq_eq, Nat.compare_eq_eq, ih]

theorem sliceCmp_swap (xs ys : List Nat) : (sliceCmp xs ys).swap = sliceCmp ys xs := by
  induction xs generalizing ys with
  | nil => cases ys <;> rfl
  | cons x xs ih =>
      cases ys with
      | nil => rfl
      | cons y ys => rw [sliceCmp_cons_cons, then_swap, Nat.compare_swap, ih]; rfl

theorem sliceCmp_lt_trans {xs ys zs : List Nat} (hxy : sliceCmp xs ys = .lt)
    (hyz : sliceCmp ys zs = .lt) : sliceCmp xs zs = .lt := by
  induction xs generalizing ys zs with
  | nil => cases zs <;> cases ys <;> simp_all [sliceCmp]
  | cons x xs ih =>
      cases ys with
      | nil => simp [sliceCmp] at hxy
      | cons y ys =>
          cases zs with
          | nil => simp [sliceCmp] at hyz
          | cons z zs =>
              simp only [sliceCmp_cons_cons, Ordering.then_eq_lt, Nat.compare_eq_lt,
                Nat.compare_eq_eq] at hxy hyz ⊢
              rcases hxy with hxy | ⟨rfl, hxy⟩ <;> rcases hyz with hyz | ⟨rfl, hyz⟩
              · exact .inl (Nat.lt_trans hxy hyz)
              · exact .inl hxy
              · exact .inl hyz
              · exact .inr ⟨rfl, ih hxy hyz⟩

theorem compare_uint8 (a b : UInt8) : compare a b = compare a.toNat b.toNat := by
  simp only [compare, compareOfLessAndEq]
  have hlt : a < b ↔ a.toNat < b.toNat := Iff.rfl
  have heq : a = b ↔ a.toNat = b.toNat := ⟨congrArg _, UInt8.toNat.inj⟩
  by_cases h₁ : a < b
  · rw [if_pos h₁, if_pos (hlt.1 h₁)]
  · rw [if_neg h₁, if_neg (mt hlt.2 h₁)]
    by_cases h₂ : a = b
    · rw [if_pos h₂, if_pos (heq.1 h₂)]
    · rw [if_neg h₂, if_neg (mt heq.2 h₂)]

theorem sliceCmp_map_toNat (xs ys : List UInt8) :
    sliceCmp xs ys = sliceCmp (xs.map UInt8.toNat) (ys.map UInt8.toNat) := by
  induction xs generalizing ys with
  | nil => cases ys <;> rfl
  | cons x xs ih => cases ys <;> simp [sliceCmp, compare_uint8, ih]

end Lex

section Lfs

theorem compare_succ_succ (a b : Nat) : compare (a + 1) (b + 1) = compare a b := by
  simp only [compare, compareOfLessAndEq, Nat.add_lt_add_iff_right, Nat.add_right_cancel_iff]

theorem cmpLfs_nil_cons (y : UInt8) (ys : List UInt8) :
    Path.cmpLfs ⟨[]⟩ ⟨y :: ys⟩ = .gt := by
  simp [Path.cmpLfs, sliceCmp, Nat.compare_eq_gt]

theorem cmpLfs_cons_nil (x : UInt8) (xs : List UInt8) :
    Path.cmpLfs ⟨x :: xs⟩ ⟨[]⟩ = .lt := by
  simp [Path.cmpLfs, sliceCmp, Nat.compare_eq_lt]

theorem cmpLfs_cons_cons (x y : UInt8) (xs ys : List UInt8) :
    Path.cmpLfs ⟨x :: xs⟩ ⟨y :: ys⟩ = (compare x y).then (Path.cmpLfs ⟨xs⟩ ⟨ys⟩) := by
  simp only [Path.cmpLfs, List.length_cons, Nat.succ_min_succ, List.take_succ_cons,
    sliceCmp_cons_cons, compare_succ_succ]
  cases compare x y <;> rfl

theorem cmpLfs_eq_sliceCmp_lfsKey (a b : Path) :
    a.cmpLfs b = sliceCmp (lfsKey a.bytes) (lfsKey b.bytes) := by
  obtain ⟨xs⟩ := a
  obtain ⟨ys⟩ := b
  induction xs generalizing ys with
  | nil =>
      cases ys with
      | nil => rfl
      | cons y ys =>
          have hy : y.toNat < 256 := y.toNat_lt_size
          simp only [cmpLfs_nil_cons, lfsKey, List.map_nil, List.nil_append, List.map_cons,
            List.cons_append, sliceCmp_cons_cons, Nat.compare_eq_gt.2 hy]
          rfl
  | cons x xs ih =>
      cases ys with
      | nil =>
          have hx : x.toNat < 256 := x.toNat_lt_size
          simp only [cmpLfs_cons_nil, lfsKey, List.map_nil, List.nil_append, List.map_cons,
            List.cons_append, sliceCmp_cons_cons, Nat.compare_eq_lt.2 hx]
          rfl
      | cons y ys =>
          rw [cmpLfs_cons_cons, ih]
          simp [lfsKey, compare_uint8]

theorem lfsKey_injective : Function.Injective lfsKey := fun _ _ h =>
  (List.map_injective_iff.2 fun _ _ => UInt8.toNat.inj) (List.append_cancel_right h)

/-- `cmp_lfs` is a total order, and it says `Equal` exactly on equal paths. -/
theorem cmpLfs_total_order (a b c : Path) :
    (a.cmpLfs b = .eq ↔ a = b) ∧ b.cmpLfs a = (a.cmpLfs b).swap ∧
      (a.cmpLfs b = .lt → b.cmpLfs c = .lt → a.cmpLfs c = .lt) := by
  simp only [cmpLfs_eq_sliceCmp_lfsKey]
  refine ⟨?_, (sliceCmp_swap _ _).symm, sliceCmp_lt_trans⟩
  rw [sliceCmp_eq_eq_iff, lfsKey_injective.eq_iff, Path.ext_iff]

/-- `cmp_str` is a total order as well, with `Equal` exactly on equal paths. -/
theorem cmpStr_total_order (a b c : Path) :
    (a.cmpStr b = .eq ↔ a = b) ∧ b.cmpStr a = (a.cmpStr b).swap ∧
      (a.cmpStr b = .lt → b.cmpStr c = .lt → a.cmpStr c = .lt) := by
  simp only [Path.cmpStr, sliceCmp_map_toNat]
  refine ⟨?_, (sliceCmp_swap _ _).symm, sliceCmp_lt_trans⟩
  rw [sliceCmp_eq_eq_iff, (List.map_injective_iff.2 fun _ _ => UInt8.toNat.inj).eq_iff,
    Path.ext_iff]

theorem isStrictPrefix_cons_cons {x y : UInt8} {xs ys : List UInt8} :
    Path.IsStrictPrefix ⟨x :: xs⟩ ⟨y :: ys⟩ ↔ x = y ∧ Path.IsStrictPrefix ⟨xs⟩ ⟨ys⟩ := by
  simp only [Path.IsStrictPrefix, List.cons_prefix_cons, ne_eq, List.cons.injEq]
  tauto

theorem then_eq_self {o₁ : Ordering} (h : o₁ ≠ .eq) (o₂ : Ordering) : o₁.then o₂ = o₁ := by
  cases o₁ <;> simp_all [Ordering.then]

/-- `cmp_lfs` and `cmp_str` agree unless one content is a strict prefix of the
other, and are opposite when it is. -/
theorem cmpLfs_eq_cmpStr_or_swap (a b : Path) :
    (¬ a.IsStrictPrefix b ∧ ¬ b.IsStrictPrefix a → a.cmpLfs b = a.cmpStr b) ∧
      (a.IsStrictPrefix b ∨ b.IsStrictPrefix a → a.cmpLfs b = (a.cmpStr b).swap) := by
  obtain ⟨xs⟩ := a
  obtain ⟨ys⟩ := b
  induction xs generalizing ys with
  | nil =>
      cases ys with
      | nil => exact ⟨fun _ => rfl, fun h => by simp [Path.IsStrictPrefix] at h⟩
      | cons y ys =>
          have hp : Path.IsStrictPrefix ⟨[]⟩ ⟨y :: ys⟩ := ⟨List.nil_prefix, by simp⟩
          exact ⟨fun h => absurd hp h.1, fun _ => cmpLfs_nil_cons y ys⟩
  | cons x xs ih =>
      cases ys with
      | nil =>
          have hp : Path.IsStrictPrefix ⟨[]⟩ ⟨x :: xs⟩ := ⟨List.nil_prefix, by simp⟩
          exact ⟨fun h => absurd hp h.2, fun _ => cmpLfs_cons_nil x xs⟩
      | cons y ys =>
          simp only [cmpLfs_cons_cons, Path.cmpStr, sliceCmp_cons_cons, isStrictPrefix_cons_cons]
          by_cases hxy : x = y
          · subst hxy
            have hxx : compare x x = .eq := by rw [compare_uint8]; exact Nat.compare_eq_eq.2 rfl
            simpa only [hxx, true_and, eq_then, Path.cmpStr] using ih ys
          · have hne : compare x y ≠ .eq := by
              rw [compare_uint8, ne_eq, Nat.compare_eq_eq]
              exact fun h => hxy (UInt8.toNat.inj h)
            simp only [then_eq_self hne, hxy, Ne.symm hxy, false_and, or_self,
              false_implies, and_true]
            trivial

/-- As in the doc test of `cmp_lfs`, on `a` and `a_a`: the prefix sorts after
its extension for `cmp_lfs` and before it for `cmp_str`. -/
example : Path.cmpLfs ⟨[97]⟩ ⟨[97, 95, 97]⟩ = .gt ∧ Path.cmpStr ⟨[97]⟩ ⟨[97, 95, 97]⟩ = .lt := by
  decide

end Lfs

end LittlefsPath
