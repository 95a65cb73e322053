/-
`Path::parent` and `Path::file_name`: the last-separator splits of a path.
`parent` recurses through `PathBuf::from` on a strictly shorter prefix when the
path ends in `/`; `file_name` splits the content together with its terminator.
-/
import LittlefsPath.PathBuf
import Mathlib.Data.List.Infix

namespace LittlefsPath

variable {pathMax : Nat}

theorem stripTrailingNul_length_le (bytes : List UInt8) :
    (stripTrailingNul bytes).length ≤ bytes.length := by
  unfold stripTrailingNul
  split_ifs <;> simp

theorem PathBuf.fromBytes_deref_length_le {bytes : List UInt8} {b : PathBuf pathMax}
    (h : PathBuf.fromBytes pathMax bytes = .ok b) : b.deref.bytes.length ≤ bytes.length := by
  rw [PathBuf.fromBytes_deref h]
  exact stripTrailingNul_length_le bytes

/-- `Path::parent`. -/
def Path.parent (pathMax : Nat) (self : Path) : Except String (Option (PathBuf pathMax)) :=
  match rposition (· == slash) self.bytes with
  | some slashIndex =>
      if slashIndex = 0 ∧ self.bytes.length ≠ 1 then
        (PathBuf.fromStr pathMax [slash]).map some
      else if slashIndex + 1 = self.bytes.length then
        match hb : PathBuf.fromBytes pathMax (self.bytes.take slashIndex) with
        | .ok b => b.deref.parent pathMax
        | .error e => .error e
      else (PathBuf.fromBytes pathMax (self.bytes.take slashIndex)).map some
  | none => .ok none
termination_by self.bytes.length
decreasing_by
  have hle := PathBuf.fromBytes_deref_length_le hb
  simp only [List.length_take] at hle
  omega

/-- `Path::file_name`, with its `debug_assert!`. -/
def Path.fileName (self : Path) : Except String (Option Path) :=
  if self.isEmpty then .ok none
  else
    let this := self.asStrRefWithTrailingNul
    match rsplitOnce slash this with
    | none => .ok none
    | some (_, path) =>
        if path = [0] then .ok none
        else if path.getLast? = some 0 then .ok (some ⟨path.dropLast⟩)
        else .error "assertion failed: path.ends_with(\x27\\x00\x27)"

section ParentSpec

theorem Path.parent_of_slash_not_mem {p : Path} (h : slash ∉ p.bytes) :
    p.parent pathMax = .ok none := by
  have hnone : rposition (· == slash) p.bytes = none :=
    rposition_eq_none_iff.2 fun z hz => beq_false_of_ne fun hz' => h (hz' ▸ hz)
  rw [Path.parent, hnone]

theorem Path.parent_append_slash {x : List UInt8} (hx : (⟨x⟩ : Path).Valid pathMax) :
    Path.parent pathMax ⟨x ++ [slash]⟩ = Path.parent pathMax ⟨x⟩ := by
  rw [Path.parent]
  simp only [rposition_slash_append_cons x (List.not_mem_nil slash), List.length_append,
    List.length_singleton]
  rw [if_neg (by omega), if_pos trivial]
  split
  · next b hb =>
      rw [List.take_left, PathBuf.fromBytes_of_valid hx, Except.ok.injEq] at hb
      subst hb
      rw [PathBuf.ofContent_deref]
  · next e he =>
      rw [List.take_left, PathBuf.fromBytes_of_valid hx] at he
      cases he

theorem Path.parent_append_cons {x y : List UInt8} (hx : (⟨x⟩ : Path).Valid pathMax)
    (hx0 : x ≠ []) (hy : slash ∉ y) (hy0 : y ≠ []) :
    Path.parent pathMax ⟨x ++ slash :: y⟩ = .ok (some (PathBuf.ofContent x hx.length_le)) := by
  have hx1 : x.length ≠ 0 := by simpa using hx0
  have hy1 : y.length ≠ 0 := by simpa using hy0
  rw [Path.parent]
  simp only [rposition_slash_append_cons x hy, List.length_append, List.length_cons,
    List.take_left, PathBuf.fromBytes_of_valid hx]
  rw [if_neg (by omega), if_neg (by omega)]
  rfl

theorem Path.parent_root_cons {y : List UInt8} (hy : slash ∉ y) (hy0 : y ≠ [])
    (hpm : 1 ≤ pathMax) :
    Path.parent pathMax ⟨slash :: y⟩ =
      .ok (some (PathBuf.ofContent [slash] (by simpa using hpm))) := by
  have hy1 : y.length ≠ 0 := by simpa using hy0
  have hroot : (⟨[slash]⟩ : Path).Valid pathMax := ⟨⟨by simp, rfl⟩, by simpa using hpm⟩
  have hr : rposition (· == slash) (slash :: y) = some 0 := rposition_slash_append_cons [] hy
  rw [Path.parent]
  simp only [hr, List.length_cons]
  rw [if_pos (by simpa using hy1), PathBuf.fromStr, PathBuf.fromBytes_of_valid hroot]
  rfl

/-- The three ways `parent` returns a buffer: the root, when the only separator
leads a longer path; the parent of the part before a trailing `/`; or the part
before the last separator. -/
theorem Path.parent_eq_ok_some {p : Path} {q : PathBuf pathMax}
    (h : p.parent pathMax = .ok (some q)) :
    ∃ x y, p.bytes = x ++ slash :: y ∧ slash ∉ y ∧
      (x = [] ∧ y ≠ [] ∧ PathBuf.fromStr pathMax [slash] = .ok q ∨
        y = [] ∧ (∃ b, PathBuf.fromBytes pathMax x = .ok b ∧ b.deref.parent pathMax = .ok (some q)) ∨
        x ≠ [] ∧ y ≠ [] ∧ PathBuf.fromBytes pathMax x = .ok q) := by
  rw [Path.parent] at h
  split at h
  · next i hi =>
      obtain ⟨x, a, y, hxy, ha, hy, rfl⟩ := rposition_eq_some hi
      obtain rfl : a = slash := by simpa using ha
      have hy' : slash ∉ y := fun hm => by simpa using hy slash hm
      have htake : p.bytes.take x.length = x := by rw [hxy, List.take_left]
      have hlen : p.bytes.length = x.length + y.length + 1 := by simp [hxy]; omega
      refine ⟨x, y, hxy, hy', ?_⟩
      rw [htake] at h
      split_ifs at h with h0 h1
      · obtain ⟨b, hb, hbq⟩ := map_eq_ok.1 h
        cases hbq
        exact .inl ⟨List.eq_nil_of_length_eq_zero h0.1,
          fun hy0 => h0.2 (by simp [hlen, h0.1, hy0]), hb⟩
      · split at h
        · next b hb =>
            exact .inr (.inl ⟨List.eq_nil_of_length_eq_zero (by omega), b, hb, h⟩)
        · cases h
      · obtain ⟨b, hb, hbq⟩ := map_eq_ok.1 h
        cases hbq
        refine .inr (.inr ⟨fun hx0 => ?_, fun hy0 => h1 (by simp [hlen, hy0]), hb⟩)
        subst hx0
        exact h0 ⟨rfl, fun hl => h1 (by simp at hl ⊢; omega)⟩
  · cases h

/-- `parent_eq_ok_some` on a path without NUL bytes, where `PathBuf::from`
keeps the prefix it is given. -/
theorem Path.parent_eq_ok_some_of_wellFormed {p : Path} (hp : p.WellFormed)
    {q : PathBuf pathMax} (h : p.parent pathMax = .ok (some q)) :
    ∃ x y, p.bytes = x ++ slash :: y ∧ (⟨x⟩ : Path).WellFormed ∧
      (x = [] ∧ y ≠ [] ∧ q.deref.bytes = [slash] ∨
        y = [] ∧ (∃ b : PathBuf pathMax, b.deref = ⟨x⟩ ∧ b.deref.parent pathMax = .ok (some q)) ∨
        x ≠ [] ∧ y ≠ [] ∧ q.deref.bytes = x) := by
  obtain ⟨x, y, hxy, -, hcase⟩ := Path.parent_eq_ok_some h
  have hx : (⟨x⟩ : Path).WellFormed := hp.of_sublist (hxy ▸ List.sublist_append_left x _)
  have hderef : ∀ {b : PathBuf pathMax}, PathBuf.fromBytes pathMax x = .ok b → b.deref = ⟨x⟩ :=
    fun hb => by rw [PathBuf.fromBytes_deref hb, stripTrailingNul_of_no_nul hx.no_nul]
  refine ⟨x, y, hxy, hx, ?_⟩
  rcases hcase with ⟨h0, hy0, hq⟩ | ⟨hy0, b, hb, hq⟩ | ⟨hx0, hy0, hq⟩
  · exact .inl ⟨h0, hy0, by rw [PathBuf.fromBytes_deref hq]; rfl⟩
  · exact .inr (.inl ⟨hy0, b, hderef hb, hq⟩)
  · exact .inr (.inr ⟨hx0, hy0, by rw [hderef hq]⟩)

/-- On a path without NUL bytes, `parent` returns a non-empty strict prefix:
the measure that makes its recursion on a trailing `/` terminate. -/
theorem Path.parent_prefix (p : Path) (hp : p.WellFormed) {q : PathBuf pathMax}
    (h : p.parent pathMax = .ok (some q)) :
    q.deref.bytes ≠ [] ∧ q.deref.bytes <+: p.bytes ∧ q.deref.bytes.length < p.bytes.length := by
  obtain ⟨n, hn⟩ : ∃ n, p.bytes.length = n := ⟨_, rfl⟩
  induction n using Nat.strong_induction_on generalizing p q with
  | _ n ih =>
    obtain ⟨x, y, hxy, hx, ⟨rfl, hy0, hq⟩ | ⟨rfl, b, hb, hq⟩ | ⟨hx0, -, hq⟩⟩ :=
      Path.parent_eq_ok_some_of_wellFormed hp h
    · rw [hq, hxy]
      exact ⟨by simp, ⟨y, rfl⟩, by simpa using List.length_pos.2 hy0⟩
    · have hbx : b.deref.bytes = x := by rw [hb]
      obtain ⟨h0, hpre, hlen⟩ :=
        ih _ (by simp [hbx, ← hn, hxy]) b.deref (by rwa [hb]) hq rfl
      rw [hbx] at hpre hlen
      rw [hxy]
      exact ⟨h0, hpre.trans (List.prefix_append x _), by simp; omega⟩
    · rw [hq, hxy]
      exact ⟨hx0, List.prefix_append x _, by simp⟩

/-- Every buffer `parent` returns comes from `PathBuf::from`, through the
recursion on a trailing `/`, and so holds its content. -/
theorem Path.parent_inv (p : Path) {b : PathBuf pathMax}
    (h : p.parent pathMax = .ok (some b)) : b.Inv := by
  obtain ⟨n, hn⟩ : ∃ n, p.bytes.length = n := ⟨_, rfl⟩
  induction n using Nat.strong_induction_on generalizing p b with
  | _ n ih =>
    obtain ⟨x, y, hxy, -, ⟨-, -, hq⟩ | ⟨rfl, b', hb', hq⟩ | ⟨-, -, hq⟩⟩ := Path.parent_eq_ok_some h
    · exact PathBuf.fromStr_inv hq
    · have hle := PathBuf.fromBytes_deref_length_le hb'
      exact ih _ (by simp [← hn, hxy]; omega) b'.deref hq rfl
    · exact PathBuf.fromBytes_inv hq

end ParentSpec

section FileName

theorem Path.fileName_eq (p : Path) :
    p.fileName = .ok ((rsplitOnce slash p.bytes).bind fun parts =>
      if parts.2 = [] then none else some ⟨parts.2⟩) := by
  by_cases hp : p.bytes = []
  · simp [Path.fileName, Path.isEmpty, hp, rsplitOnce, rposition]
  have hne : p.isEmpty = false := by simpa [Path.isEmpty] using hp
  cases hs : rsplitOnce slash p.bytes with
  | none =>
      have hnot : slash ∉ p.bytes ++ [0] := by simpa using rsplitOnce_eq_none_iff.1 hs
      simp [Path.fileName, hne, Path.asStrRefWithTrailingNul, rsplitOnce_eq_none_iff.2 hnot]
  | some parts =>
      obtain ⟨x, y⟩ := parts
      obtain ⟨hxy, hy⟩ := rsplitOnce_eq_some_iff.1 hs
      have hsplit : rsplitOnce slash (p.bytes ++ [0]) = some (x, y ++ [0]) :=
        rsplitOnce_eq_some_iff.2 ⟨by simp [hxy], by simpa using hy⟩
      by_cases hy0 : y = [] <;>
        simp [Path.fileName, hne, Path.asStrRefWithTrailingNul, hsplit, hy0]

theorem Path.fileName_of_slash_not_mem {p : Path} (h : slash ∉ p.bytes) :
    p.fileName = .ok none := by
  rw [Path.fileName_eq, rsplitOnce_eq_none_iff.2 h]
  rfl

theorem Path.fileName_append_cons (x : List UInt8) {y : List UInt8} (hy : slash ∉ y)
    (hy0 : y ≠ []) : Path.fileName ⟨x ++ slash :: y⟩ = .ok (some ⟨y⟩) := by
  rw [Path.fileName_eq, rsplitOnce_eq_some_iff.2 ⟨rfl, hy⟩]
  simp [hy0]

/-- What `file_name` returns: the non-empty part after the last separator. -/
theorem Path.fileName_eq_some {p n : Path} (h : p.fileName = .ok (some n)) :
    ∃ x, p.bytes = x ++ slash :: n.bytes ∧ slash ∉ n.bytes ∧ n.bytes ≠ [] := by
  rw [Path.fileName_eq] at h
  cases hs : rsplitOnce slash p.bytes with
  | none => simp [hs] at h
  | some parts =>
      obtain ⟨x, y⟩ := parts
      obtain ⟨hxy, hy⟩ := rsplitOnce_eq_some_iff.1 hs
      by_cases hy0 : y = []
      · simp [hs, hy0] at h
      · obtain rfl : ⟨y⟩ = n := by simpa [hs, hy0] using h
        exact ⟨x, hxy, hy, hy0⟩

/-- A path with no separator, such as `a`, has no file name. -/
theorem Path.fileName_single_component : Path.fileName ⟨[97]⟩ = .ok none := rfl

end FileName

/-- Joining a name onto a directory path is undone by `parent` and `file_name`. -/
theorem Path.join_parent_fileName (d n : Path) (hd : d.WellFormed) (hn : n.WellFormed)
    (hdir : d.bytes = [slash] ∨ (d.bytes ≠ [] ∧ d.bytes.getLast? ≠ some slash))
    (hname : n.bytes ≠ [] ∧ slash ∉ n.bytes)
    (hlen : d.bytes.length + 1 + n.bytes.length ≤ pathMax) :
    ∃ j, Path.join pathMax d n = .ok j ∧
      (∃ q e, j.deref.parent pathMax = .ok (some q) ∧ PathBuf.fromPath pathMax d = .ok e ∧
        q.deref = e.deref) ∧
      j.deref.fileName = .ok (some n) := by
  obtain ⟨hn0, hns⟩ := hname
  have hn1 : n.bytes ≠ [slash] := fun h => hns (by simp [h])
  have hd' : d.bytes.length ≤ pathMax := by omega
  have hfrom : PathBuf.fromPath pathMax d = .ok (PathBuf.ofContent d.bytes hd') :=
    PathBuf.fromPath_eq_ok_iff.2 ⟨hd', rfl⟩
  obtain ⟨j, hj, -, hjc⟩ := @Path.join_append pathMax d n hd hn hn0 hn1 (by split <;> omega)
  rcases hdir with hroot | ⟨hd0, hlast⟩
  · have hsep : needsSeparator d.bytes = false := by simp [hroot, needsSeparator]
    have hjd : j.deref = ⟨slash :: n.bytes⟩ := Path.ext (by simpa [hsep, hroot] using hjc)
    have hpm : 1 ≤ pathMax := by simp [hroot] at hlen; omega
    refine ⟨j, hj, ⟨PathBuf.ofContent [slash] (by simpa using hpm), _, ?_, hfrom,
      by simp [hroot]⟩, ?_⟩
    · rw [hjd]
      exact Path.parent_root_cons hns hn0 hpm
    · rw [hjd]
      exact Path.fileName_append_cons [] hns hn0
  · have hsep : needsSeparator d.bytes = true := needsSeparator_iff.2 ⟨hd0, hlast⟩
    have hjd : j.deref = ⟨d.bytes ++ slash :: n.bytes⟩ := Path.ext (by simpa [hsep] using hjc)
    refine ⟨j, hj, ⟨PathBuf.ofContent d.bytes hd', _, ?_, hfrom, rfl⟩, ?_⟩
    · rw [hjd]
      exact Path.parent_append_cons ⟨hd, hd'⟩ hd0 hns hn0
    · rw [hjd]
      exact Path.fileName_append_cons d.bytes hns hn0

/-- `"/".join("b")` with `PATH_MAX = 3`. -/
theorem Path.join_parent_fileName_root :
    (⟨[slash]⟩ : Path).WellFormed ∧ (⟨[98]⟩ : Path).WellFormed ∧
      ∃ j, Path.join 3 ⟨[slash]⟩ ⟨[98]⟩ = .ok j ∧
        (∃ q e, j.deref.parent 3 = .ok (some q) ∧ PathBuf.fromPath 3 ⟨[slash]⟩ = .ok e ∧
          q.deref = e.deref) ∧
        j.deref.fileName = .ok (some ⟨[98]⟩) :=
  ⟨by decide, by decide, Path.join_parent_fileName ⟨[slash]⟩ ⟨[98]⟩ (by decide) (by decide)
    (.inl rfl) ⟨by decide, by decide⟩ (by decide)⟩

/-- Splitting a path with no doubled separator into its `parent` and its
`file_name` and joining the two gives the path back. -/
theorem Path.parent_join_fileName (p : Path) (hp : p.Valid pathMax)
    (hd : ¬ [slash, slash] <:+: p.bytes) {n : Path} (hn : p.fileName = .ok (some n)) :
    ∃ q j, p.parent pathMax = .ok (some q) ∧ Path.join pathMax q.deref n = .ok j ∧ j.deref = p := by
  obtain ⟨x, hxy, hy, hy0⟩ := Path.fileName_eq_some hn
  rcases p with ⟨bytes⟩
  rcases n with ⟨y⟩
  dsimp only at hxy hy hy0
  subst hxy
  have hlen := hp.length_le
  simp only [List.length_append, List.length_cons] at hlen
  have hyw : (⟨y⟩ : Path).WellFormed :=
    hp.toWellFormed.of_sublist ((List.sublist_cons_self _ _).trans (List.sublist_append_right _ _))
  have hy1 : y ≠ [slash] := fun h => hy (by simp [h])
  by_cases hx0 : x = []
  · subst hx0
    have hpm : 1 ≤ pathMax := by omega
    have hsep : needsSeparator [slash] = false := by decide
    obtain ⟨j, hj, -, hjc⟩ := @Path.join_append pathMax ⟨[slash]⟩ ⟨y⟩ ⟨by decide, rfl⟩ hyw hy0
      hy1 (by simp only [hsep]; simp; omega)
    refine ⟨_, j, Path.parent_root_cons hy hy0 hpm, by rwa [PathBuf.ofContent_deref], ?_⟩
    exact Path.ext (by simp [hjc, hsep])
  · have hxv : (⟨x⟩ : Path).Valid pathMax := hp.of_sublist (List.sublist_append_left _ _)
    have hlast : x.getLast? ≠ some slash := fun h => by
      obtain ⟨x', rfl⟩ := List.getLast?_eq_some_iff.1 h
      exact hd ⟨x', y, by simp⟩
    have hsep : needsSeparator x = true := needsSeparator_iff.2 ⟨hx0, hlast⟩
    obtain ⟨j, hj, -, hjc⟩ := @Path.join_append pathMax ⟨x⟩ ⟨y⟩ hxv.toWellFormed hyw hy0 hy1
      (by simp only [hsep]; simp; omega)
    refine ⟨_, j, Path.parent_append_cons hxv hx0 hy hy0, by rwa [PathBuf.ofContent_deref], ?_⟩
    exact Path.ext (by simp [hjc, hsep])

/-- `a/b` with `PATH_MAX = 3`: its parent `a` joined with its file name `b`. -/
theorem Path.parent_join_fileName_a_b :
    (⟨[97, slash, 98]⟩ : Path).Valid 3 ∧ ¬ [slash, slash] <:+: [97, slash, 98] ∧
      Path.fileName ⟨[97, slash, 98]⟩ = .ok (some ⟨[98]⟩) ∧
      ∃ q j, Path.parent 3 ⟨[97, slash, 98]⟩ = .ok (some q) ∧
        Path.join 3 q.deref ⟨[98]⟩ = .ok j ∧ j.deref = ⟨[97, slash, 98]⟩ :=
  ⟨by decide, by decide, rfl, Path.parent_join_fileName _ (by decide) (by decide) rfl⟩

end LittlefsPath
