/-
The abstract `PathBuf`: its content, a byte string of at most `PATH_MAX`
bytes.  `push` makes `pushContent` of the content and fails when the result
does not fit; the assertions of the array code all come down to this one
check.  The array `PathBuf` refines this machine on every run of `clear` and
`push`, the runs that panic included, and `Path::join`, which is
`PathBuf::from` followed by `push`, refines its abstract counterpart.  From
the abstract side, joining is associative as long as neither of the two
paths joined on is the root `/`, and it makes a doubled separator exactly
when the joined path starts with one.  Pushing the items of a path and then
iterating over the buffer gives the items back.
-/
import LittlefsPath.Invariant

namespace LittlefsPath

variable {pathMax : Nat}

/-- The abstract `push`: `pushContent`, when the result fits in `PATH_MAX`
bytes. -/
def pushChecked (pathMax : Nat) (c q : List UInt8) : Option (List UInt8) :=
  if (pushContent c q).length ≤ pathMax then some (pushContent c q) else none

/-- The abstract `Path::join`: `PathBuf::from` fails on a content longer than
`PATH_MAX`, and the abstract `push` follows. -/
def joinChecked (pathMax : Nat) (d n : List UInt8) : Option (List UInt8) :=
  if d.length ≤ pathMax then pushChecked pathMax d n else none

/-- One operation of the abstract `PathBuf`. -/
def Op.check (pathMax : Nat) (c : List UInt8) : Op → Option (List UInt8)
  | .clear => some []
  | .push q => pushChecked pathMax c q.bytes

/-- A run of the abstract `PathBuf`, stopped by the first failure. -/
def Op.checkAll (pathMax : Nat) : List Op → List UInt8 → Option (List UInt8)
  | [], c => some c
  | op :: ops, c => (Op.check pathMax c op).bind (Op.checkAll pathMax ops)

section Refines

theorem PathBuf.push_of_fits {b : PathBuf pathMax} (hb : b.Inv) {q : Path} (hq : q.WellFormed)
    (hfit : (pushContent b.deref.bytes q.bytes).length ≤ pathMax) :
    ∃ b', b.push q = .ok b' := by
  by_cases h0 : q.bytes = []
  · exact ⟨b, PathBuf.push_empty b h0⟩
  by_cases h1 : q.bytes = [slash]
  · rw [h1, pushContent_slash] at hfit
    obtain ⟨b', h, -⟩ := PathBuf.push_spec hb hq (.inl ⟨h1, hfit⟩)
    exact ⟨b', h⟩
  · rw [pushContent_of_ne h0 h1] at hfit
    obtain ⟨b', h, -⟩ := PathBuf.push_spec hb hq
      (.inr ⟨h1, by split_ifs at hfit ⊢ <;> simp at hfit <;> omega⟩)
    exact ⟨b', h⟩

/-- One `push` is one step of the abstract machine: it returns exactly when
the abstract `push` does, with the same content. -/
theorem PathBuf.push_refines {b : PathBuf pathMax} (hb : b.Inv) {q : Path} (hq : q.WellFormed) :
    (b.push q).toOption.map (fun b' => b'.deref.bytes) =
      pushChecked pathMax b.deref.bytes q.bytes := by
  cases h : b.push q with
  | ok b' =>
      obtain ⟨hb', hc⟩ := PathBuf.push_ok_spec hb hq h
      rw [pushChecked, ← hc, if_pos hb'.deref_valid.length_le]
      rfl
  | error e =>
      rw [pushChecked, if_neg fun hfit => ?_]
      · rfl
      obtain ⟨b', hb'⟩ := PathBuf.push_of_fits hb hq hfit
      rw [h] at hb'
      cases hb'

theorem Op.apply_refines {b : PathBuf pathMax} (hb : b.Inv) {op : Op} (hop : op.WellFormed) :
    (Op.apply b op).toOption.map (fun b' => b'.deref.bytes) =
      Op.check pathMax b.deref.bytes op := by
  cases op with
  | clear => exact congrArg some (@PathBuf.new_spec pathMax).2
  | push q => exact PathBuf.push_refines hb hop

theorem runOps_checkAll_of_ok {ops : List Op} (hops : ∀ op ∈ ops, op.WellFormed)
    {b b' : PathBuf pathMax} (hb : b.Inv) (h : runOps ops b = .ok b') :
    Op.checkAll pathMax ops b.deref.bytes = some b'.deref.bytes := by
  induction ops generalizing b with
  | nil =>
      cases h
      rfl
  | cons op ops ih =>
      have hop := hops op (List.mem_cons_self op ops)
      obtain ⟨b1, h1, hrun⟩ := bind_eq_ok.1 h
      have hc := Op.apply_refines hb hop
      rw [h1, toOption_ok, Option.map_some'] at hc
      rw [Op.checkAll, ← hc, Option.some_bind]
      exact ih (fun op' h' => hops op' (List.mem_cons_of_mem op h')) (Op.apply_spec hb hop h1).1 hrun

theorem runOps_ok_of_checkAll {ops : List Op} (hops : ∀ op ∈ ops, op.WellFormed)
    {b : PathBuf pathMax} (hb : b.Inv) {c' : List UInt8}
    (h : Op.checkAll pathMax ops b.deref.bytes = some c') : ∃ b', runOps ops b = .ok b' := by
  induction ops generalizing b with
  | nil => exact ⟨b, rfl⟩
  | cons op ops ih =>
      have hop := hops op (List.mem_cons_self op ops)
      have hc := Op.apply_refines hb hop
      cases h1 : Op.apply b op with
      | error e =>
          rw [h1, toOption_error, Option.map_none'] at hc
          rw [Op.checkAll, ← hc, Option.none_bind] at h
          cases h
      | ok b1 =>
          rw [h1, toOption_ok, Option.map_some'] at hc
          rw [Op.checkAll, ← hc, Option.some_bind] at h
          obtain ⟨b', hb'⟩ :=
            ih (fun op' h' => hops op' (List.mem_cons_of_mem op h')) (Op.apply_spec hb hop h1).1 h
          exact ⟨b', by simp [runOps, h1, hb']⟩

/-- The array `PathBuf` refines the abstract one on every run of `clear` and
`push` from a buffer with the invariant: the run returns exactly when the
abstract run does, and with the abstract content. -/
theorem runOps_refines {ops : List Op} (hops : ∀ op ∈ ops, op.WellFormed) {b : PathBuf pathMax}
    (hb : b.Inv) :
    (runOps ops b).toOption.map (fun b' => b'.deref.bytes) =
      Op.checkAll pathMax ops b.deref.bytes := by
  cases h : runOps ops b with
  | ok b' => exact (runOps_checkAll_of_ok hops hb h).symm
  | error e =>
      cases hc : Op.checkAll pathMax ops b.deref.bytes with
      | none => rfl
      | some c' =>
          obtain ⟨b', hb'⟩ := runOps_ok_of_checkAll hops hb hc
          rw [h] at hb'
          cases hb'

/-- Pushing `a` and then `b` onto an empty buffer with `PATH_MAX = 3`. -/
theorem runOps_refines_a_b :
    (∀ op ∈ [Op.push ⟨[97]⟩, Op.push ⟨[98]⟩], op.WellFormed) ∧ (PathBuf.new 3).Inv ∧
      (runOps [Op.push ⟨[97]⟩, Op.push ⟨[98]⟩] (PathBuf.new 3)).toOption.map
          (fun b' => b'.deref.bytes) =
        Op.checkAll 3 [Op.push ⟨[97]⟩, Op.push ⟨[98]⟩] (PathBuf.new 3).deref.bytes := by
  have hops : ∀ op ∈ [Op.push ⟨[97]⟩, Op.push ⟨[98]⟩], op.WellFormed := by
    simp only [List.mem_cons, List.mem_singleton, forall_eq_or_imp, forall_eq, List.not_mem_nil,
      or_false, Op.WellFormed]
    decide
  exact ⟨hops, PathBuf.new_spec.1, runOps_refines hops PathBuf.new_spec.1⟩

/-- `Path::join` returns exactly when the abstract join does, with the same
content. -/
theorem Path.join_refines {d n : Path} (hd : d.WellFormed) (hn : n.WellFormed) :
    (Path.join pathMax d n).toOption.map (fun j => j.deref.bytes) =
      joinChecked pathMax d.bytes n.bytes := by
  unfold joinChecked
  split_ifs with hl
  · have hinv := PathBuf.ofContent_spec hl hd
    rw [Path.join, PathBuf.fromPath_eq_ok_iff.2 ⟨hl, rfl⟩, ok_bind, PathBuf.push_refines hinv.1 hn,
      hinv.2]
  · simp [Path.join, PathBuf.fromPath, hl]

end Refines

section Join

theorem needsSeparator_append {x b : List UInt8} (hb : b ≠ []) :
    needsSeparator (x ++ b) = needsSeparator b := by
  simp [needsSeparator, List.getLast?_append, List.getLast?_eq_getLast b hb]

theorem pushContent_ne_slash {b c : List UInt8} (hb : b ≠ [slash]) (hc : c ≠ [slash]) :
    pushContent b c ≠ [slash] := by
  by_cases hc0 : c = []
  · rwa [hc0, pushContent_nil]
  rw [pushContent_of_ne hc0 hc, ne_eq, List.append_eq_cons_iff]
  rintro (⟨-, h⟩ | ⟨a', -, h⟩)
  · exact hc h
  · exact hc0 (List.append_eq_nil.1 h.symm).2

/-- A path other than the root never shortens the content it is pushed onto. -/
theorem length_le_pushContent (d : List UInt8) {b : List UInt8} (hb : b ≠ [slash]) :
    d.length ≤ (pushContent d b).length ∧ b.length ≤ (pushContent d b).length := by
  by_cases hb0 : b = []
  · simp [hb0, pushContent_nil]
  rw [pushContent_of_ne hb0 hb]
  simp only [List.length_append]
  omega

/-- Pushing `b` and then `c` is pushing what `c` pushed onto `b` makes, unless
one of the two is the root, which resets the content. -/
theorem pushContent_assoc (d : List UInt8) {b c : List UInt8} (hb : b ≠ [slash])
    (hc : c ≠ [slash]) : pushContent (pushContent d b) c = pushContent d (pushContent b c) := by
  by_cases hc0 : c = []
  · rw [hc0, pushContent_nil, pushContent_nil]
  by_cases hb0 : b = []
  · rw [hb0, pushContent_nil, pushContent_nil_left]
  have hbc : pushContent b c = b ++ (if needsSeparator b then [slash] else []) ++ c :=
    pushContent_of_ne hc0 hc
  have hbc0 : pushContent b c ≠ [] := by simp [hbc, hc0]
  rw [pushContent_of_ne hbc0 (pushContent_ne_slash hb hc), hbc, pushContent_of_ne hb0 hb,
    pushContent_of_ne hc0 hc, needsSeparator_append hb0]
  simp

theorem joinChecked_assoc (d : List UInt8) {b c : List UInt8} (hb : b ≠ [slash])
    (hc : c ≠ [slash]) :
    (joinChecked pathMax d b).bind (fun j => joinChecked pathMax j c) =
      (joinChecked pathMax b c).bind (fun k => joinChecked pathMax d k) := by
  have hdb := length_le_pushContent d hb
  have hbc := length_le_pushContent b hc
  have hl := length_le_pushContent (pushContent d b) hc
  have hr := length_le_pushContent d (pushContent_ne_slash hb hc)
  rw [pushContent_assoc d hb hc] at hl
  simp only [joinChecked, pushChecked]
  split_ifs <;> simp only [Option.some_bind, Option.none_bind, pushContent_assoc d hb hc] <;>
    split_ifs <;> first | rfl | omega

theorem bind_deref_refines {u : Except String (PathBuf pathMax)} (hu : ∀ j, u = .ok j → j.Inv)
    {g : Path → Except String (PathBuf pathMax)} {G : List UInt8 → Option (List UInt8)}
    (hg : ∀ w : Path, w.Valid pathMax → (g w).toOption.map (fun r => r.deref.bytes) = G w.bytes) :
    (u >>= fun j => g j.deref).toOption.map (fun r => r.deref.bytes) =
      (u.toOption.map fun j => j.deref.bytes).bind G := by
  cases u with
  | error e => rfl
  | ok j => exact hg j.deref (hu j rfl).deref_valid

/-- `Path::join` is associative when neither of the two paths joined on is the
root `/`: joining `b` onto `d` and then `c` onto the result, and joining onto
`d` the join of `b` and `c`, both panic or both return the same path. -/
theorem Path.join_assoc (d b c : Path) (hd : d.WellFormed) (hb : b.WellFormed) (hc : c.WellFormed)
    (hb1 : b.bytes ≠ [slash]) (hc1 : c.bytes ≠ [slash]) :
    (Path.join pathMax d b >>= fun j => Path.join pathMax j.deref c).toOption.map
        (fun r => r.deref) =
      (Path.join pathMax b c >>= fun k => Path.join pathMax d k.deref).toOption.map
        (fun r => r.deref) := by
  have hl := @bind_deref_refines pathMax _ (fun _ h => Path.join_inv hd hb h) _
    (fun x => joinChecked pathMax x c.bytes) (fun w hw => Path.join_refines hw.toWellFormed hc)
  have hr := @bind_deref_refines pathMax _ (fun _ h => Path.join_inv hb hc h) _
    (fun x => joinChecked pathMax d.bytes x) (fun w hw => Path.join_refines hd hw.toWellFormed)
  rw [Path.join_refines hd hb] at hl
  rw [Path.join_refines hb hc, ← joinChecked_assoc d.bytes hb1 hc1, ← hl] at hr
  apply @Option.map_injective _ _ Path.bytes @Path.ext
  simpa only [Option.map_map] using hr.symm

/-- `a`, `b` and `c` joined both ways with `PATH_MAX = 5`. -/
theorem Path.join_assoc_abc :
    (⟨[97]⟩ : Path).WellFormed ∧ (⟨[98]⟩ : Path).WellFormed ∧ (⟨[99]⟩ : Path).WellFormed ∧
      [98] ≠ [slash] ∧ [99] ≠ [slash] ∧
      (Path.join 5 ⟨[97]⟩ ⟨[98]⟩ >>= fun j => Path.join 5 j.deref ⟨[99]⟩).toOption.map
          (fun r => r.deref) =
        (Path.join 5 ⟨[98]⟩ ⟨[99]⟩ >>= fun k => Path.join 5 ⟨[97]⟩ k.deref).toOption.map
          (fun r => r.deref) :=
  ⟨by decide, by decide, by decide, by decide, by decide,
    Path.join_assoc ⟨[97]⟩ ⟨[98]⟩ ⟨[99]⟩ (by decide) (by decide) (by decide) (by decide) (by decide)⟩

/-- Where a doubled separator can sit in two byte strings put together. -/
theorem doubled_append_iff {a b : List UInt8} :
    [slash, slash] <:+: a ++ b ↔ [slash, slash] <:+: a ∨ [slash, slash] <:+: b ∨
      a.getLast? = some slash ∧ b.head? = some slash := by
  constructor
  · rintro ⟨s, t, h⟩
    rw [List.append_assoc, List.append_eq_append_iff] at h
    rcases h with ⟨a', rfl, h⟩ | ⟨c', rfl, rfl⟩
    · match a', h with
      | [], h => exact .inr (.inl ⟨[], t, by simpa using h⟩)
      | [x], h =>
          obtain ⟨rfl, rfl⟩ : slash = x ∧ slash :: t = b := by simpa using h
          exact .inr (.inr ⟨by simp, rfl⟩)
      | x :: y :: r, h =>
          obtain ⟨rfl, rfl, rfl⟩ : slash = x ∧ slash = y ∧ t = r ++ b := by simpa using h
          exact .inl ⟨s, r, by simp⟩
    · exact .inr (.inl ⟨c', t, by simp⟩)
  · rintro (h | h | ⟨ha, hb⟩)
    · exact h.trans (List.prefix_append a b).isInfix
    · exact h.trans (List.suffix_append a b).isInfix
    · obtain ⟨a', rfl⟩ := List.getLast?_eq_some_iff.1 ha
      obtain ⟨b', rfl⟩ := List.head?_eq_some_iff.1 hb
      exact ⟨a', b', by simp⟩

/-- On paths without a doubled separator, `join` makes one exactly when the
joined path starts with `/` without being the root and the directory is not
empty. -/
theorem Path.join_doubled_iff {d n : Path} (hd : d.WellFormed) (hn : n.WellFormed)
    (hd2 : ¬ [slash, slash] <:+: d.bytes) (hn2 : ¬ [slash, slash] <:+: n.bytes)
    {j : PathBuf pathMax} (h : Path.join pathMax d n = .ok j) :
    [slash, slash] <:+: j.deref.bytes ↔
      d.bytes ≠ [] ∧ n.bytes.head? = some slash ∧ n.bytes ≠ [slash] := by
  obtain ⟨b, hb, hpush⟩ := bind_eq_ok.1 h
  have hc := (PathBuf.push_ok_spec (PathBuf.fromPath_inv hd hb) hn hpush).2
  obtain ⟨hl, hbeq⟩ := PathBuf.fromPath_eq_ok_iff.1 hb
  rw [hc, hbeq, PathBuf.ofContent_deref]
  have hroot : ¬ [slash, slash] <:+: [slash] := by decide
  have hnil : ¬ [slash, slash] <:+: ([] : List UInt8) := by decide
  by_cases h0 : n.bytes = []
  · simp [h0, pushContent_nil, hd2]
  by_cases h1 : n.bytes = [slash]
  · simp [h1, pushContent_slash, hroot]
  rw [pushContent_of_ne h0 h1, doubled_append_iff, doubled_append_iff]
  by_cases hd0 : d.bytes = []
  · simp [hd0, needsSeparator, hnil, hn2]
  cases hsep : needsSeparator d.bytes
  · have hlast : d.bytes.getLast? = some slash := by
      by_contra hl
      exact absurd (needsSeparator_iff.2 ⟨hd0, hl⟩) (by simp [hsep])
    simp [hd2, hn2, hnil, hlast, hd0, h1]
  · have hlast := (needsSeparator_iff.1 hsep).2
    simp [hd2, hn2, hroot, hlast, hd0, h1]

/-- `"a".join("/b")` with `PATH_MAX = 4` is `a//b`. -/
theorem Path.join_doubled_iff_a_root_b :
    (⟨[97]⟩ : Path).WellFormed ∧ (⟨[slash, 98]⟩ : Path).WellFormed ∧
      ¬ [slash, slash] <:+: [97] ∧ ¬ [slash, slash] <:+: [slash, 98] ∧
      ∃ j, Path.join 4 ⟨[97]⟩ ⟨[slash, 98]⟩ = .ok j ∧
        ([slash, slash] <:+: j.deref.bytes ↔
          (⟨[97]⟩ : Path).bytes ≠ [] ∧ (⟨[slash, 98]⟩ : Path).bytes.head? = some slash ∧
            (⟨[slash, 98]⟩ : Path).bytes ≠ [slash]) := by
  obtain ⟨j, hj, -⟩ := @Path.join_append 4 ⟨[97]⟩ ⟨[slash, 98]⟩ (by decide) (by decide)
    (by decide) (by decide) (by decide)
  exact ⟨by decide, by decide, by decide, by decide, j, hj,
    Path.join_doubled_iff (by decide) (by decide) (by decide) (by decide) hj⟩

end Join

section Components

/-- Items as `iter` yields them: the root, first if at all, then non-empty
segments without `/`. -/
def IsComponents : List (List UInt8) → Prop
  | [] => True
  | w :: ws => (w = [slash] ∨ w ≠ [] ∧ slash ∉ w) ∧ ∀ v ∈ ws, v ≠ [] ∧ slash ∉ v

instance : (ws : List (List UInt8)) → Decidable (IsComponents ws)
  | [] => isTrue trivial
  | w :: ws => inferInstanceAs
      (Decidable ((w = [slash] ∨ w ≠ [] ∧ slash ∉ w) ∧ ∀ v ∈ ws, v ≠ [] ∧ slash ∉ v))

theorem pushContent_prepend (p : List UInt8) {x v : List UInt8} (hx : x ≠ []) (hv : v ≠ [slash]) :
    pushContent (p ++ x) v = p ++ pushContent x v := by
  by_cases hv0 : v = []
  · rw [hv0, pushContent_nil, pushContent_nil]
  rw [pushContent_of_ne hv0 hv, pushContent_of_ne hv0 hv, needsSeparator_append hx]
  simp

theorem foldl_pushContent_prepend (p : List UInt8) {x : List UInt8} (hx : x ≠ [])
    {ws : List (List UInt8)} (hws : ∀ v ∈ ws, v ≠ [slash]) :
    ws.foldl pushContent (p ++ x) = p ++ ws.foldl pushContent x := by
  induction ws generalizing x with
  | nil => rfl
  | cons v ws ih =>
      have hv := hws v (List.mem_cons_self v ws)
      have hx' : pushContent x v ≠ [] := List.ne_nil_of_length_pos
        ((List.length_pos.2 hx).trans_le (length_le_pushContent x hv).1)
      rw [List.foldl_cons, List.foldl_cons, pushContent_prepend p hx hv,
        ih hx' fun v' h' => hws v' (List.mem_cons_of_mem v h')]

theorem length_le_foldl_pushContent (c : List UInt8) {ws : List (List UInt8)}
    (hws : ∀ v ∈ ws, v ≠ [slash]) : c.length ≤ (ws.foldl pushContent c).length := by
  induction ws generalizing c with
  | nil => exact le_rfl
  | cons v ws ih =>
      exact (length_le_pushContent c (hws v (List.mem_cons_self v ws))).1.trans
        (ih _ fun v' h' => hws v' (List.mem_cons_of_mem v h'))

/-- Pushing a first item and then segments writes the item, then each segment
after a `/`. -/
theorem foldl_pushContent_cons {w v : List UInt8} (hw : w = [slash] ∨ w ≠ [] ∧ slash ∉ w)
    (hv : v ≠ [] ∧ slash ∉ v) {ws : List (List UInt8)} (hws : ∀ u ∈ ws, u ≠ [slash]) :
    (v :: ws).foldl pushContent w = w ++ (if w = [slash] then [] else [slash]) ++
      (v :: ws).foldl pushContent [] := by
  have hv1 : v ≠ [slash] := fun h => hv.2 (by simp [h])
  rw [List.foldl_cons, List.foldl_cons, pushContent_nil_left, pushContent_of_ne hv.1 hv1,
    foldl_pushContent_prepend _ hv.1 hws]
  rcases hw with rfl | ⟨hw0, hw⟩
  · simp [needsSeparator]
  · have hlast : w.getLast? ≠ some slash := fun h => hw (List.mem_of_getLast?_eq_some h)
    simp [needsSeparator_iff.2 ⟨hw0, hlast⟩, if_neg fun h : w = [slash] => hw (by simp [h])]

/-- `iter` takes apart what pushing its items puts together. -/
theorem components_foldl_pushContent {ws : List (List UInt8)} (hws : IsComponents ws) :
    components (ws.foldl pushContent []) = ws := by
  cases ws with
  | nil => exact components_nil
  | cons w ws =>
    obtain ⟨hw, hws⟩ := hws
    rw [List.foldl_cons, pushContent_nil_left]
    induction ws generalizing w with
    | nil =>
        rcases hw with rfl | ⟨hw0, hw⟩
        · exact components_root
        · exact components_word hw0 hw
    | cons v ws ih =>
        have hv := hws v (List.mem_cons_self v ws)
        have hrest : ∀ u ∈ ws, u ≠ [] ∧ slash ∉ u := fun u hu => hws u (List.mem_cons_of_mem v hu)
        have ht := ih v (.inr hv) hrest
        rw [foldl_pushContent_cons hw hv fun u hu h => (hrest u hu).2 (by simp [h]),
          List.foldl_cons, pushContent_nil_left]
        rcases hw with rfl | ⟨hw0, hw⟩
        · rw [if_pos rfl, List.append_nil, List.singleton_append,
            components_of_step (Iter.step_slash_cons _), ht]
        · rw [if_neg fun h => hw (by simp [h]), List.append_assoc, List.singleton_append,
            components_of_step (Iter.step_word_slash hw0 hw _), ht]

theorem checkAll_pushes {ws : List Path} (hws : ∀ w ∈ ws, w.bytes ≠ [slash]) (c : List UInt8)
    (hfit : ((ws.map Path.bytes).foldl pushContent c).length ≤ pathMax) :
    Op.checkAll pathMax (ws.map Op.push) c = some ((ws.map Path.bytes).foldl pushContent c) := by
  induction ws generalizing c with
  | nil => rfl
  | cons w ws ih =>
      have hrest : ∀ w' ∈ ws, w'.bytes ≠ [slash] := fun w' h => hws w' (List.mem_cons_of_mem w h)
      have hmono := @length_le_foldl_pushContent (pushContent c w.bytes) (ws.map Path.bytes)
        (by simpa using hrest)
      simp only [List.map_cons, List.foldl_cons] at hfit ⊢
      rw [Op.checkAll, Op.check, pushChecked, if_pos (hmono.trans hfit), Option.some_bind,
        ih hrest _ hfit]

theorem checkAll_components {ws : List Path} (hws : IsComponents (ws.map Path.bytes))
    (hfit : ((ws.map Path.bytes).foldl pushContent []).length ≤ pathMax) :
    Op.checkAll pathMax (ws.map Op.push) [] = some ((ws.map Path.bytes).foldl pushContent []) := by
  cases ws with
  | nil => rfl
  | cons w ws =>
      have hrest : ∀ v ∈ ws, v.bytes ≠ [slash] := fun v hv h =>
        (hws.2 v.bytes (List.mem_map_of_mem _ hv)).2 (by simp [h])
      simp only [List.map_cons, List.foldl_cons, pushContent_nil_left] at hfit ⊢
      have hw := (length_le_foldl_pushContent w.bytes (by simpa using hrest)).trans hfit
      rw [Op.checkAll, Op.check, pushChecked, pushContent_nil_left, if_pos hw, Option.some_bind]
      exact checkAll_pushes hrest w.bytes hfit

/-- Pushing the items of a path one after the other onto an empty buffer and
iterating over the result gives the items back: for a first item that is the
root or a segment, then non-empty segments without `/`, all of which fit in
`PATH_MAX` bytes once joined, the loop `for w in ws { buf.push(w) }` returns,
and `iter` on the buffer yields `ws` and then `None`. -/
theorem Iter.nexts_of_pushes (ws : List Path) (hwf : ∀ w ∈ ws, w.WellFormed)
    (hws : IsComponents (ws.map Path.bytes))
    (hfit : ((ws.map Path.bytes).foldl pushContent []).length ≤ pathMax) :
    ∃ b, runOps (ws.map Op.push) (PathBuf.new pathMax) = .ok b ∧
      ∀ n, ∃ items, Iter.nexts pathMax n b.deref.iter = .ok items ∧
        items.map (Option.map fun b => b.deref.bytes) =
          (List.range n).map fun i => (ws.map Path.bytes)[i]? := by
  have hops : ∀ op ∈ ws.map Op.push, op.WellFormed := by
    simpa [Op.WellFormed] using hwf
  have hnew := @PathBuf.new_spec pathMax
  have hcheck : Op.checkAll pathMax (ws.map Op.push) (PathBuf.new pathMax).deref.bytes =
      some ((ws.map Path.bytes).foldl pushContent []) := by
    rw [hnew.2]
    exact checkAll_components hws hfit
  obtain ⟨b, hb⟩ := runOps_ok_of_checkAll hops hnew.1 hcheck
  have hc := runOps_checkAll_of_ok hops hnew.1 hb
  rw [hcheck, Option.some.injEq] at hc
  have hinv := (runOps_spec hops hnew.1 hb).1
  refine ⟨b, hb, fun n => ?_⟩
  obtain ⟨items, hrun, hmap⟩ := @Iter.nexts_spec pathMax b.deref.bytes hinv.deref_valid n
  exact ⟨items, hrun, by rw [hmap, ← hc, components_foldl_pushContent hws]⟩

/-- The items `/`, `a`, `b`, pushed with `PATH_MAX = 4`. -/
theorem Iter.nexts_of_pushes_root_a_b :
    (∀ w ∈ [(⟨[slash]⟩ : Path), ⟨[97]⟩, ⟨[98]⟩], w.WellFormed) ∧
      IsComponents ([(⟨[slash]⟩ : Path), ⟨[97]⟩, ⟨[98]⟩].map Path.bytes) ∧
      (([(⟨[slash]⟩ : Path), ⟨[97]⟩, ⟨[98]⟩].map Path.bytes).foldl pushContent []).length ≤ 4 ∧
      ∃ b, runOps ([(⟨[slash]⟩ : Path), ⟨[97]⟩, ⟨[98]⟩].map Op.push) (PathBuf.new 4) = .ok b ∧
        ∀ n, ∃ items, Iter.nexts 4 n b.deref.iter = .ok items ∧
          items.map (Option.map fun b => b.deref.bytes) =
            (List.range n).map fun i => ([(⟨[slash]⟩ : Path), ⟨[97]⟩, ⟨[98]⟩].map Path.bytes)[i]? := by
  have hwf : ∀ w ∈ [(⟨[slash]⟩ : Path), ⟨[97]⟩, ⟨[98]⟩], w.WellFormed := by decide
  have hws : IsComponents ([(⟨[slash]⟩ : Path), ⟨[97]⟩, ⟨[98]⟩].map Path.bytes) := by decide
  have hfit : (([(⟨[slash]⟩ : Path), ⟨[97]⟩, ⟨[98]⟩].map Path.bytes).foldl pushContent []).length ≤ 4 := by
    decide
  exact ⟨hwf, hws, hfit, Iter.nexts_of_pushes _ hwf hws hfit⟩

end Components

end LittlefsPath
