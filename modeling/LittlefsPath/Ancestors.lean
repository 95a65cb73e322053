/-
The `Ancestors` iterator of `path.rs`.  Its state is the `&str` it has left;
`next` yields that string and strips its last segment, and when the stripped
segment is empty (a trailing `/`) it calls itself once more and drops the item
of that call.  The iterator is related to the recursion of `Path::parent`:
every item after the first is the parent of the one before.
-/
import LittlefsPath.Parent

namespace LittlefsPath

variable {pathMax : Nat}

/-- `Ancestors::next` on the iterator's state `path`: the item and the state
after the call. -/
def Ancestors.next (pathMax : Nat) (path : List UInt8) :
    Except String (Option (PathBuf pathMax) × List UInt8) :=
  if path = [] then .ok (none, path)
  else if path = [slash] then do
    let b ← PathBuf.fromStr pathMax [slash]
    .ok (some b, [])
  else
    let item := path
    match hsplit : rsplitOnce slash path with
    | none => do
        let b ← PathBuf.fromStr pathMax item
        .ok (some b, [])
    | some (rem, itemName) =>
        let path := if path.head? = some slash ∧ rem = [] then [slash] else rem
        if itemName = [] then do
          let (_, path) ← Ancestors.next pathMax path
          let b ← PathBuf.fromStr pathMax item
          .ok (some b, path)
        else do
          let b ← PathBuf.fromStr pathMax item
          .ok (some b, path)
termination_by path.length
decreasing_by
  obtain ⟨rfl, -⟩ := rsplitOnce_eq_some_iff.1 hsplit
  split_ifs with h
  · simp_all
  · simp

/-- `Path::ancestors`: the iterator's state starts as the whole content. -/
def Path.ancestors (self : Path) : List UInt8 := self.bytes

/-- The results of `n` successive calls of `next` on an iterator in state
`path`. -/
def Ancestors.nexts (pathMax : Nat) : Nat → List UInt8 →
    Except String (List (Option (PathBuf pathMax)))
  | 0, _ => .ok []
  | n + 1, path => do
      let (item, path) ← Ancestors.next pathMax path
      let items ← Ancestors.nexts pathMax n path
      .ok (item :: items)

/-- `n` entries of `b`, `b.parent()`, `b.parent().parent()`, ..., with `None`
from the first `None` on. -/
def parentChain (pathMax : Nat) : Nat → Option (PathBuf pathMax) →
    Except String (List (Option (PathBuf pathMax)))
  | 0, _ => .ok []
  | n + 1, none => do
      let rest ← parentChain pathMax n none
      .ok (none :: rest)
  | n + 1, some b => do
      let parent ← b.deref.parent pathMax
      let rest ← parentChain pathMax n parent
      .ok (some b :: rest)

theorem Ancestors.next_nil : Ancestors.next pathMax [] = .ok (none, []) := by
  rw [Ancestors.next, if_pos rfl]

/-- Every item of `Ancestors` comes from `PathBuf::from`; the item of the
inner call on a trailing `/` is dropped. -/
theorem Ancestors.next_inv {path rest : List UInt8} {b : PathBuf pathMax}
    (h : Ancestors.next pathMax path = .ok (some b, rest)) : b.Inv := by
  rw [Ancestors.next] at h
  split_ifs at h
  · cases h
  · obtain ⟨b', hb', hbb⟩ := bind_eq_ok.1 h
    cases hbb
    exact PathBuf.fromStr_inv hb'
  · split at h
    · obtain ⟨b', hb', hbb⟩ := bind_eq_ok.1 h
      cases hbb
      exact PathBuf.fromStr_inv hb'
    · next _ itemName _ =>
        by_cases hy : itemName = []
        · rw [if_pos hy] at h
          obtain ⟨_, -, h⟩ := bind_eq_ok.1 h
          obtain ⟨b', hb', hbb⟩ := bind_eq_ok.1 h
          cases hbb
          exact PathBuf.fromStr_inv hb'
        · rw [if_neg hy] at h
          obtain ⟨b', hb', hbb⟩ := bind_eq_ok.1 h
          cases hbb
          exact PathBuf.fromStr_inv hb'

theorem PathBuf.fromStr_of_valid {c : List UInt8} (hc : (⟨c⟩ : Path).Valid pathMax) :
    PathBuf.fromStr pathMax c = .ok (PathBuf.ofContent c hc.length_le) :=
  PathBuf.fromBytes_of_valid hc

theorem Path.valid_of_prefix {x y : List UInt8} (h : (⟨x ++ y⟩ : Path).Valid pathMax) :
    (⟨x⟩ : Path).Valid pathMax :=
  h.of_sublist (List.sublist_append_left x y)

/-- `next` on a state with a separator, once the split is known. -/
theorem Ancestors.next_of_rsplitOnce {s x y : List UInt8} (hne : s ≠ []) (hroot : s ≠ [slash])
    (hsplit : rsplitOnce slash s = some (x, y)) :
    Ancestors.next pathMax s =
      (let path := if s.head? = some slash ∧ x = [] then [slash] else x
      if y = [] then do
        let (_, path) ← Ancestors.next pathMax path
        let b ← PathBuf.fromStr pathMax s
        .ok (some b, path)
      else do
        let b ← PathBuf.fromStr pathMax s
        .ok (some b, path)) := by
  rw [Ancestors.next, if_neg hne, if_neg hroot]
  split
  · next heq => exact absurd (hsplit.symm.trans heq) (by simp)
  · next rem itemName heq =>
      obtain ⟨rfl, rfl⟩ : x = rem ∧ y = itemName := by simpa using hsplit.symm.trans heq
      rfl

/-- One call of `next` on a non-empty state yields that state and leaves the
iterator at the parent of the state. -/
theorem Ancestors.next_spec {s : List UInt8} (hs : (⟨s⟩ : Path).Valid pathMax) (hne : s ≠ []) :
    ∃ s', (⟨s'⟩ : Path).Valid pathMax ∧
      Ancestors.next pathMax s = .ok (some (PathBuf.ofContent s hs.length_le), s') ∧
      Path.parent pathMax ⟨s⟩ =
        if s' = [] then .ok none else (PathBuf.fromBytes pathMax s').map some := by
  obtain ⟨n, hn⟩ : ∃ n, s.length = n := ⟨_, rfl⟩
  induction n using Nat.strong_induction_on generalizing s with
  | _ n ih =>
    have hempty : (⟨[]⟩ : Path).Valid pathMax := ⟨⟨by simp, rfl⟩, by simp⟩
    by_cases hroot : s = [slash]
    · subst hroot
      refine ⟨[], hempty, ?_, ?_⟩
      · rw [Ancestors.next, if_neg hne, if_pos rfl, PathBuf.fromStr_of_valid hs]
        rfl
      · rw [show ([slash] : List UInt8) = [] ++ [slash] from rfl,
          Path.parent_append_slash hempty, Path.parent_of_slash_not_mem (by simp)]
        rfl
    cases hsplit : rsplitOnce slash s with
    | none =>
        refine ⟨[], hempty, ?_, ?_⟩
        · rw [Ancestors.next, if_neg hne, if_neg hroot]
          split
          · simp only [PathBuf.fromStr_of_valid hs, ok_bind]
          · next heq => exact absurd (hsplit.symm.trans heq) (by simp)
        · rw [Path.parent_of_slash_not_mem (rsplitOnce_eq_none_iff.1 hsplit)]
          rfl
    | some parts =>
        obtain ⟨x, y⟩ := parts
        obtain ⟨hxy, hy⟩ := rsplitOnce_eq_some_iff.1 hsplit
        have hxv : (⟨x⟩ : Path).Valid pathMax := Path.valid_of_prefix (hxy ▸ hs)
        rw [Ancestors.next_of_rsplitOnce hne hroot hsplit, PathBuf.fromStr_of_valid hs]
        by_cases hy0 : y = []
        · subst hy0
          have hx0 : x ≠ [] := fun h => hroot (by simp [hxy, h])
          have hlt : x.length < n := by simp [← hn, hxy]
          obtain ⟨s', hv', hnext, hpar⟩ := ih x.length hlt hxv hx0 rfl
          refine ⟨s', hv', ?_, ?_⟩
          · simp [hx0, hnext]
          · rw [show s = x ++ [slash] from hxy, Path.parent_append_slash hxv, hpar]
        · by_cases hx0 : x = []
          · subst hx0
            have hpm : 1 ≤ pathMax := by
              have := hs.length_le; simp [hxy] at this; omega
            have hroot' : (⟨[slash]⟩ : Path).Valid pathMax := ⟨⟨by simp, rfl⟩, by simpa using hpm⟩
            refine ⟨[slash], hroot', by simp [hy0, hxy], ?_⟩
            rw [show s = slash :: y by simpa using hxy, Path.parent_root_cons hy hy0 hpm,
              PathBuf.fromBytes_of_valid hroot']
            rfl
          · refine ⟨x, hxv, by simp [hy0, hx0], ?_⟩
            rw [show s = x ++ slash :: y from hxy, Path.parent_append_cons hxv hx0 hy hy0,
              if_neg hx0, PathBuf.fromBytes_of_valid hxv]
            rfl

theorem parentChain_none (n : Nat) :
    parentChain pathMax n none = .ok (List.replicate n none) := by
  induction n with
  | zero => rfl
  | succ n ih => simp [parentChain, ih, List.replicate_succ]

/-- The run lemma: from any valid state, the calls of `next` walk the parent
chain of the state. -/
theorem Ancestors.nexts_eq_parentChain {s : List UInt8} (hs : (⟨s⟩ : Path).Valid pathMax)
    (n : Nat) :
    Ancestors.nexts pathMax n s =
      parentChain pathMax n (if s = [] then none else some (PathBuf.ofContent s hs.length_le)) := by
  induction n generalizing s with
  | zero => rfl
  | succ n ih =>
      by_cases hne : s = []
      · subst hne
        simp [Ancestors.nexts, parentChain, Ancestors.next_nil, ih hs]
      · obtain ⟨s', hv', hnext, hpar⟩ := Ancestors.next_spec hs hne
        simp only [Ancestors.nexts, hnext, ok_bind, ih hv', if_neg hne, parentChain,
          PathBuf.ofContent_deref, hpar]
        by_cases hs' : s' = []
        · simp [hs']
        · simp [hs', PathBuf.fromBytes_of_valid hv']

/-- One call of `next` on a non-empty valid state yields the state and leaves a
valid strict prefix of it: the measure of the iterator. -/
theorem Ancestors.next_prefix {s : List UInt8} (hs : (⟨s⟩ : Path).Valid pathMax) (hne : s ≠ []) :
    ∃ s', (⟨s'⟩ : Path).Valid pathMax ∧ s' <+: s ∧ s'.length < s.length ∧
      Ancestors.next pathMax s = .ok (some (PathBuf.ofContent s hs.length_le), s') := by
  obtain ⟨s', hv', hnext, hpar⟩ := Ancestors.next_spec hs hne
  suffices h : s' <+: s ∧ s'.length < s.length from ⟨s', hv', h.1, h.2, hnext⟩
  by_cases h0 : s' = []
  · subst h0
    exact ⟨List.nil_prefix, List.length_pos.2 hne⟩
  · rw [if_neg h0, PathBuf.fromBytes_of_valid hv', ok_map] at hpar
    obtain ⟨-, hpre, hlt⟩ := Path.parent_prefix ⟨s⟩ hs.toWellFormed hpar
    simp only [PathBuf.ofContent_deref] at hpre hlt
    exact ⟨hpre, hlt⟩

/-- `n` calls of `next` from a valid state `s`: the items are non-empty
prefixes of `s` with strictly decreasing lengths, at most `|s|` of them, and
every call after the first `None` returns `None`. -/
theorem Ancestors.nexts_spec {s : List UInt8} (hs : (⟨s⟩ : Path).Valid pathMax) (n : Nat) :
    ∃ items : List (PathBuf pathMax),
      Ancestors.nexts pathMax n s = .ok (items.map some ++ List.replicate (n - items.length) none) ∧
      items.length ≤ s.length ∧ (∀ b ∈ items, b.deref.bytes ≠ [] ∧ b.deref.bytes <+: s) ∧
      (items.map fun b => b.deref.bytes.length).Pairwise (· > ·) := by
  induction n generalizing s with
  | zero => exact ⟨[], rfl, Nat.zero_le _, by simp, List.Pairwise.nil⟩
  | succ n ih =>
    by_cases hne : s = []
    · subst hne
      obtain ⟨items, hrun, hlen, -⟩ := ih hs
      obtain rfl : items = [] := List.eq_nil_of_length_eq_zero (Nat.le_zero.1 hlen)
      refine ⟨[], ?_, Nat.zero_le _, by simp, List.Pairwise.nil⟩
      simp [Ancestors.nexts, Ancestors.next_nil, hrun, List.replicate_succ]
    · obtain ⟨s', hv', hpre, hlt, hnext⟩ := Ancestors.next_prefix hs hne
      obtain ⟨items, hrun, hlen, hitems, hdec⟩ := ih hv'
      refine ⟨PathBuf.ofContent s hs.length_le :: items, ?_, ?_, ?_, ?_⟩
      · simp [Ancestors.nexts, hnext, hrun]
      · simp only [List.length_cons]
        omega
      · simp only [List.mem_cons, forall_eq_or_imp, PathBuf.ofContent_deref]
        exact ⟨⟨hne, List.prefix_refl s⟩, fun b hb => ⟨(hitems b hb).1, (hitems b hb).2.trans hpre⟩⟩
      · simp only [List.map_cons, PathBuf.ofContent_deref, List.pairwise_cons, List.mem_map]
        refine ⟨?_, hdec⟩
        rintro _ ⟨b, hb, rfl⟩
        exact Nat.lt_of_le_of_lt (hitems b hb).2.length_le hlt

/-- On a valid path `parent` returns, without panicking. -/
theorem Path.parent_ok (p : Path) (hp : p.Valid pathMax) : ∃ r, p.parent pathMax = .ok r := by
  by_cases hne : p.bytes = []
  · exact ⟨none, Path.parent_of_slash_not_mem (by simp [hne])⟩
  · obtain ⟨s', hv', -, hpar⟩ := Ancestors.next_spec hp hne
    rw [hpar]
    split_ifs
    · exact ⟨_, rfl⟩
    · exact ⟨_, by rw [PathBuf.fromBytes_of_valid hv', ok_map]⟩

/-- The items of `ancestors` are the path itself and then its successive
parents, up to the first `None`, after which every call returns `None`; an
empty path yields nothing. -/
theorem Ancestors.nexts_eq_parents (p : Path) (hp : p.Valid pathMax) (n : Nat) :
    Ancestors.nexts pathMax n p.ancestors =
      (if p.bytes = [] then .ok (List.replicate n none)
      else do
        let b ← PathBuf.fromPath pathMax p
        parentChain pathMax n (some b)) := by
  rw [Path.ancestors, Ancestors.nexts_eq_parentChain hp]
  by_cases hne : p.bytes = []
  · simp [hne, parentChain_none]
  · simp [hne, PathBuf.fromPath_eq_ok_iff.2 ⟨hp.length_le, rfl⟩]

/-- Four calls of `next` on the ancestors of `a//b`. -/
theorem Ancestors.nexts_eq_parents_doubled :
    (⟨[97, slash, slash, 98]⟩ : Path).Valid 4 ∧
      Ancestors.nexts 4 4 (Path.ancestors ⟨[97, slash, slash, 98]⟩) =
        (if [97, slash, slash, 98] = [] then .ok (List.replicate 4 none)
        else do
          let b ← PathBuf.fromPath 4 ⟨[97, slash, slash, 98]⟩
          parentChain 4 4 (some b)) :=
  ⟨by decide, Ancestors.nexts_eq_parents ⟨[97, slash, slash, 98]⟩ (by decide) 4⟩

/-- The items of `ancestors` are non-empty prefixes of the path with strictly
decreasing lengths, at most as many as the path has bytes, and every call after
the first `None` returns `None`; `parent` returns a non-empty strict prefix. -/
theorem Ancestors.nexts_strict_prefixes (p : Path) (hp : p.Valid pathMax) :
    (∀ n, ∃ items : List (PathBuf pathMax),
      Ancestors.nexts pathMax n p.ancestors =
        .ok (items.map some ++ List.replicate (n - items.length) none) ∧
      items.length ≤ p.bytes.length ∧
      (∀ b ∈ items, b.deref.bytes ≠ [] ∧ b.deref.bytes <+: p.bytes) ∧
      (items.map fun b => b.deref.bytes.length).Pairwise (· > ·)) ∧
    ∀ q : PathBuf pathMax, p.parent pathMax = .ok (some q) →
      q.deref.bytes ≠ [] ∧ q.deref.bytes <+: p.bytes ∧ q.deref.bytes.length < p.bytes.length :=
  ⟨Ancestors.nexts_spec hp, fun _ h => Path.parent_prefix p hp.toWellFormed h⟩

/-- The ancestors and the parent of `/a`, with `PATH_MAX = 2`. -/
theorem Ancestors.nexts_strict_prefixes_root :
    (⟨[slash, 97]⟩ : Path).Valid 2 ∧
    (∀ n, ∃ items : List (PathBuf 2),
      Ancestors.nexts 2 n (Path.ancestors ⟨[slash, 97]⟩) =
        .ok (items.map some ++ List.replicate (n - items.length) none) ∧
      items.length ≤ [slash, 97].length ∧
      (∀ b ∈ items, b.deref.bytes ≠ [] ∧ b.deref.bytes <+: [slash, 97]) ∧
      (items.map fun b => b.deref.bytes.length).Pairwise (· > ·)) ∧
    ∀ q : PathBuf 2, Path.parent 2 ⟨[slash, 97]⟩ = .ok (some q) →
      q.deref.bytes ≠ [] ∧ q.deref.bytes <+: [slash, 97] ∧
        q.deref.bytes.length < [slash, 97].length :=
  ⟨by decide, Ancestors.nexts_strict_prefixes ⟨[slash, 97]⟩ (by decide)⟩

end LittlefsPath
