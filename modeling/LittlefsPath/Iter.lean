/-
The `Iter` iterator of `path.rs` (`Path::iter`), its abstract model, and the
loop that pushes its items one after the other onto a `PathBuf`.  `Iter::next`
is the pure split `Iter.step` followed by `PathBuf::from` on the item;
`components` lists the items of a whole run and `rejoin` folds the abstract
`push` over them.  On a path in normal form, `Ancestors` yields the states of
that loop, last first.
-/
import LittlefsPath.Ancestors

namespace LittlefsPath

variable {pathMax : Nat}

/-- `Path::iter`: the iterator's state starts as the whole content. -/
def Path.iter (self : Path) : List UInt8 := self.bytes

/-- `Iter::next` on the iterator's state `path`: the item and the state after
the call. -/
def Iter.next (pathMax : Nat) (path : List UInt8) :
    Except String (Option (PathBuf pathMax) × List UInt8) :=
  if path = [] then .ok (none, path)
  else if path.head? = some slash then do
    let b ← PathBuf.fromStr pathMax [slash]
    .ok (some b, path.drop 1)
  else
    match splitOnce slash path with
    | none => do
        let retVal ← PathBuf.fromStr pathMax path
        .ok (some retVal, [])
    | some (path, rem) => do
        let b ← PathBuf.fromStr pathMax path
        .ok (some b, rem)

/-- The split `Iter::next` makes, without the conversion of the item: the
item's content and the state after. -/
def Iter.step (path : List UInt8) : Option (List UInt8 × List UInt8) :=
  if path = [] then none
  else if path.head? = some slash then some ([slash], path.drop 1)
  else
    match splitOnce slash path with
    | none => some (path, [])
    | some (item, rem) => some (item, rem)

theorem Iter.next_eq_step (path : List UInt8) :
    Iter.next pathMax path =
      match Iter.step path with
      | none => .ok (none, path)
      | some (item, rest) => (PathBuf.fromStr pathMax item).map fun b => (some b, rest) := by
  unfold Iter.next Iter.step
  split_ifs
  · rfl
  · exact bind_ok_eq_map _ _
  · split <;> exact bind_ok_eq_map _ _

theorem Iter.next_inv {path rest : List UInt8} {b : PathBuf pathMax}
    (h : Iter.next pathMax path = .ok (some b, rest)) : b.Inv := by
  rw [Iter.next_eq_step] at h
  split at h
  · cases h
  · obtain ⟨b', hb', hbb⟩ := map_eq_ok.1 h
    cases hbb
    exact PathBuf.fromStr_inv hb'

theorem Iter.next_of_step {s item rest : List UInt8} (h : Iter.step s = some (item, rest))
    (hv : (⟨item⟩ : Path).Valid pathMax) :
    Iter.next pathMax s = .ok (some (PathBuf.ofContent item hv.length_le), rest) := by
  simp only [Iter.next_eq_step, h, PathBuf.fromStr_of_valid hv]
  rfl

theorem Iter.step_eq_none_iff {path : List UInt8} : Iter.step path = none ↔ path = [] := by
  unfold Iter.step
  split_ifs with h0
  · simp [h0]
  · simp [h0]
  · split <;> simp [h0]

/-- What one step of `Iter` does: yield the root and drop the leading `/`, or
yield the first segment, followed by a `/` unless it is all that is left. -/
theorem Iter.step_eq_some {path item rest : List UInt8}
    (h : Iter.step path = some (item, rest)) :
    item = [slash] ∧ path = slash :: rest ∨
      item ≠ [] ∧ slash ∉ item ∧ (path = item ∧ rest = [] ∨ path = item ++ slash :: rest) := by
  unfold Iter.step at h
  split_ifs at h with h0 h1
  · obtain ⟨rfl, rfl⟩ := Prod.mk.inj (Option.some.inj h)
    cases path with
    | nil => exact absurd rfl h0
    | cons a t =>
        obtain rfl : a = slash := by simpa using h1
        exact .inl ⟨rfl, rfl⟩
  · split at h
    · next hnone =>
        obtain ⟨rfl, rfl⟩ := Prod.mk.inj (Option.some.inj h)
        exact .inr ⟨h0, splitOnce_eq_none_iff.1 hnone, .inl ⟨rfl, rfl⟩⟩
    · next heq =>
        obtain ⟨rfl, rfl⟩ := Prod.mk.inj (Option.some.inj h)
        obtain ⟨rfl, hw⟩ := splitOnce_eq_some heq
        refine .inr ⟨?_, hw, .inr rfl⟩
        rintro rfl
        exact h1 rfl

theorem Iter.step_length {path item rest : List UInt8}
    (h : Iter.step path = some (item, rest)) : rest.length < path.length := by
  rcases Iter.step_eq_some h with ⟨-, rfl⟩ | ⟨h0, -, ⟨rfl, rfl⟩ | rfl⟩
  · simp
  · exact List.length_pos.2 h0
  · simp only [List.length_append, List.length_cons]
    omega

theorem Iter.step_sublist {path item rest : List UInt8}
    (h : Iter.step path = some (item, rest)) : item.Sublist path ∧ rest.Sublist path := by
  rcases Iter.step_eq_some h with ⟨rfl, rfl⟩ | ⟨-, -, ⟨rfl, rfl⟩ | rfl⟩
  · exact ⟨List.cons_sublist_cons.2 (List.nil_sublist _), List.sublist_cons_self _ _⟩
  · exact ⟨List.Sublist.refl _, List.nil_sublist _⟩
  · exact ⟨List.sublist_append_left _ _,
      (List.sublist_cons_self _ _).trans (List.sublist_append_right _ _)⟩

/-- Induction along a run of `Iter`: a property of the empty state that one
step of the iterator carries back to the state before it holds of every
state. -/
theorem Iter.step_induction {motive : List UInt8 → Prop} (nil : motive [])
    (step : ∀ s item rest, Iter.step s = some (item, rest) → motive rest → motive s)
    (s : List UInt8) : motive s := by
  obtain ⟨n, hn⟩ : ∃ n, s.length = n := ⟨_, rfl⟩
  induction n using Nat.strong_induction_on generalizing s with
  | _ n ih =>
    cases hstep : Iter.step s with
    | none => rwa [Iter.step_eq_none_iff.1 hstep]
    | some parts => exact step s _ _ hstep (ih _ (hn ▸ Iter.step_length hstep) _ rfl)

/-- The contents of the items a run of `Iter` yields from the state `path`. -/
def components (path : List UInt8) : List (List UInt8) :=
  match h : Iter.step path with
  | none => []
  | some (item, rest) => item :: components rest
termination_by path.length
decreasing_by exact Iter.step_length h

/-- The content `push` builds from `c` by appending the items of a run from
`path`, one after the other. -/
def rejoin (c path : List UInt8) : List UInt8 := (components path).foldl pushContent c

section Components

theorem Iter.step_slash_cons (t : List UInt8) : Iter.step (slash :: t) = some ([slash], t) := by
  simp [Iter.step]

theorem head_ne_slash_of_not_mem {w : List UInt8} (hw : slash ∉ w) : w.head? ≠ some slash :=
  fun h => hw (List.mem_of_mem_head? h)

theorem Iter.step_word_slash {w : List UInt8} (hw0 : w ≠ []) (hw : slash ∉ w) (t : List UInt8) :
    Iter.step (w ++ slash :: t) = some (w, t) := by
  have hhead : (w ++ slash :: t).head? ≠ some slash := by
    rw [List.head?_append_of_ne_nil _ hw0]
    exact head_ne_slash_of_not_mem hw
  unfold Iter.step
  rw [if_neg (by simp), if_neg hhead, splitOnce_append_cons hw]

theorem components_of_step {path item rest : List UInt8}
    (h : Iter.step path = some (item, rest)) : components path = item :: components rest := by
  rw [components]
  split
  · next heq => exact absurd (h.symm.trans heq) (by simp)
  · next item' rest' heq =>
      obtain ⟨rfl, rfl⟩ : item = item' ∧ rest = rest' := by simpa using h.symm.trans heq
      rfl

theorem components_nil : components [] = [] := by
  rw [components]
  split
  · rfl
  · next heq => simp [Iter.step] at heq

theorem rejoin_nil (c : List UInt8) : rejoin c [] = c := by
  simp [rejoin, components_nil]

theorem rejoin_of_step {c path item rest : List UInt8} (h : Iter.step path = some (item, rest)) :
    rejoin c path = rejoin (pushContent c item) rest := by
  simp [rejoin, components_of_step h]

theorem pushContent_word (c : List UInt8) {w : List UInt8} (hw0 : w ≠ []) (hw : slash ∉ w) :
    pushContent c w = c ++ (if needsSeparator c then [slash] else []) ++ w := by
  have h1 : w ≠ [slash] := fun h => hw (by simp [h])
  simp [pushContent, hw0, h1]

theorem needsSeparator_append_word (c : List UInt8) {w : List UInt8} (hw0 : w ≠ [])
    (hw : slash ∉ w) : needsSeparator (c ++ w) = true := by
  rcases List.eq_nil_or_concat w with rfl | ⟨l, x, rfl⟩
  · exact absurd rfl hw0
  · have hx : x ≠ slash := fun h => hw (by simp [h])
    simp [needsSeparator, ← List.append_assoc, hx]

theorem rejoin_slash_cons (c t : List UInt8) : rejoin c (slash :: t) = rejoin [slash] t := by
  rw [rejoin_of_step (Iter.step_slash_cons t), pushContent_slash]

theorem rejoin_word_slash (c : List UInt8) {w : List UInt8} (hw0 : w ≠ []) (hw : slash ∉ w)
    (t : List UInt8) : rejoin c (w ++ slash :: t) = rejoin (pushContent c w) t :=
  rejoin_of_step (Iter.step_word_slash hw0 hw t)

end Components

section Rejoin

/-- `p` without a trailing `/`, unless `p` is the root `/`. -/
def stripTrailingSlash (p : List UInt8) : List UInt8 :=
  if p ≠ [slash] ∧ p.getLast? = some slash then p.dropLast else p

theorem stripTrailingSlash_of_not_mem {w : List UInt8} (hw : slash ∉ w) :
    stripTrailingSlash w = w := by
  have : w.getLast? ≠ some slash := fun h => hw (List.mem_of_getLast?_eq_some h)
  simp [stripTrailingSlash, this]

theorem stripTrailingSlash_append_slash {w : List UInt8} (hw0 : w ≠ []) :
    stripTrailingSlash (w ++ [slash]) = w := by
  have : w ++ [slash] ≠ [slash] := by simpa using hw0
  simp [stripTrailingSlash, this]

theorem stripTrailingSlash_cons {a : UInt8} (ha : a ≠ slash) (t : List UInt8) :
    ∃ r, stripTrailingSlash (a :: t) = a :: r := by
  unfold stripTrailingSlash
  split_ifs with h
  · rcases List.eq_nil_or_concat t with rfl | ⟨l, x, rfl⟩
    · exact absurd (by simpa using h.2) ha
    · exact ⟨l, by rw [List.concat_eq_append, ← List.cons_append, List.dropLast_concat]⟩
  · exact ⟨t, rfl⟩

theorem append_cons_ne_singleton {w t : List UInt8} (h : w ≠ [] ∨ t ≠ []) (a b : UInt8) :
    w ++ a :: t ≠ [b] := fun he => by
  have := congrArg List.length he
  simp only [List.length_append, List.length_cons, List.length_nil] at this
  rcases h with h | h <;> exact h (List.eq_nil_of_length_eq_zero (by omega))

theorem stripTrailingSlash_append_cons (w : List UInt8) {t : List UInt8} (ht0 : t ≠ [])
    (ht1 : t ≠ [slash]) :
    stripTrailingSlash (w ++ slash :: t) = w ++ slash :: stripTrailingSlash t := by
  have hne : w ++ slash :: t ≠ [slash] := append_cons_ne_singleton (.inr ht0) slash slash
  have hlast : (w ++ slash :: t).getLast? = t.getLast? := by
    rw [List.getLast?_append, List.getLast?_cons]
    cases h : t.getLast? with
    | none => simp_all
    | some x => rfl
  unfold stripTrailingSlash
  by_cases hl : t.getLast? = some slash
  · rw [if_pos ⟨hne, hlast ▸ hl⟩, if_pos ⟨ht1, hl⟩, List.dropLast_append_cons,
      List.dropLast_cons_of_ne_nil ht0]
  · rw [if_neg (fun h => hl (hlast ▸ h.2)), if_neg (fun h => hl h.2)]

theorem not_doubled_tail {w t : List UInt8} (h : ¬ [slash, slash] <:+: w ++ slash :: t) :
    t.head? ≠ some slash ∧ ¬ [slash, slash] <:+: t := by
  constructor
  · intro ht
    cases t with
    | nil => simp at ht
    | cons a t =>
        obtain rfl : a = slash := by simpa using ht
        exact h ⟨w, t, by simp⟩
  · exact fun ht => h (ht.trans ⟨w ++ [slash], [], by simp⟩)

/-- For a path with no doubled separator that does not start with one, the
loop appends the path without its trailing `/`. -/
theorem rejoin_of_not_doubled (c : List UInt8) {s : List UInt8}
    (hs : ¬ [slash, slash] <:+: s) (hhead : s.head? ≠ some slash) :
    rejoin c s = pushContent c (stripTrailingSlash s) := by
  induction s using Iter.step_induction generalizing c with
  | nil => simp [rejoin_nil, stripTrailingSlash, pushContent_nil]
  | step s w t hstep ih =>
    rw [rejoin_of_step hstep]
    rcases Iter.step_eq_some hstep with ⟨-, rfl⟩ | ⟨hw0, hw, ⟨rfl, rfl⟩ | rfl⟩
    · exact absurd rfl hhead
    · rw [rejoin_nil, stripTrailingSlash_of_not_mem hw]
    · obtain ⟨ht, hts⟩ := not_doubled_tail hs
      rw [ih _ hts ht]
      by_cases ht0 : t = []
      · subst ht0
        rw [stripTrailingSlash_append_slash hw0, show stripTrailingSlash [] = [] by
          simp [stripTrailingSlash], pushContent_nil]
      · obtain ⟨a, t', rfl⟩ := List.exists_cons_of_ne_nil ht0
        have ha : a ≠ slash := fun h => ht (by simp [h])
        obtain ⟨r, hr⟩ := stripTrailingSlash_cons ha t'
        have ht1 : a :: t' ≠ [slash] := fun h => ha (List.cons.inj h).1
        rw [stripTrailingSlash_append_cons w ht0 ht1, hr, pushContent_word c hw0 hw,
          pushContent_of_ne (by simp) (fun h => ha (List.cons.inj h).1),
          needsSeparator_append_word _ hw0 hw,
          pushContent_of_ne (by simp) (append_cons_ne_singleton (.inl hw0) slash slash)]
        simp

theorem pushContent_nil_left (q : List UInt8) : pushContent [] q = q := by
  unfold pushContent
  split_ifs <;> simp_all [needsSeparator]

/-- A path with no doubled separator comes back from the loop without its
trailing `/`. -/
theorem rejoin_nil_of_not_doubled {p : List UInt8} (hp : ¬ [slash, slash] <:+: p) :
    rejoin [] p = stripTrailingSlash p := by
  by_cases hhead : p.head? = some slash
  · obtain ⟨t, rfl⟩ : ∃ t, p = slash :: t := by
      cases p with
      | nil => simp at hhead
      | cons a t => exact ⟨t, by simpa using hhead⟩
    obtain ⟨ht, hts⟩ := @not_doubled_tail [] t hp
    rw [rejoin_slash_cons, rejoin_of_not_doubled _ hts ht]
    by_cases ht0 : t = []
    · subst ht0
      rfl
    · obtain ⟨a, t', rfl⟩ := List.exists_cons_of_ne_nil ht0
      have ha : a ≠ slash := fun h => ht (by simp [h])
      obtain ⟨r, hr⟩ := stripTrailingSlash_cons ha t'
      rw [show slash :: a :: t' = [] ++ slash :: a :: t' from rfl,
        stripTrailingSlash_append_cons [] ht0 (fun h => ha (List.cons.inj h).1), hr,
        pushContent_of_ne (by simp) (fun h => ha (List.cons.inj h).1)]
      simp [needsSeparator]
  · rw [rejoin_of_not_doubled [] hp hhead, pushContent_nil_left]

/-- A doubled separator restarts the loop at the root: the items before it
are lost. -/
theorem rejoin_doubled (c u y : List UInt8) :
    rejoin c (u ++ slash :: slash :: y) = rejoin [slash] y := by
  obtain ⟨n, hn⟩ : ∃ n, u.length = n := ⟨_, rfl⟩
  induction n using Nat.strong_induction_on generalizing c u with
  | _ n ih =>
    cases hsplit : splitOnce slash u with
    | none =>
        have hw := splitOnce_eq_none_iff.1 hsplit
        by_cases hu0 : u = []
        · subst hu0
          rw [List.nil_append, rejoin_slash_cons, rejoin_slash_cons]
        · rw [rejoin_word_slash c hu0 hw, rejoin_slash_cons]
    | some parts =>
        obtain ⟨w, t⟩ := parts
        obtain ⟨rfl, hw⟩ := splitOnce_eq_some hsplit
        have hlt : t.length < n := by simp [← hn]; omega
        by_cases hw0 : w = []
        · subst hw0
          rw [List.nil_append, List.cons_append, rejoin_slash_cons, ih t.length hlt _ _ rfl]
        · rw [List.append_assoc, List.cons_append, rejoin_word_slash c hw0 hw,
            ih t.length hlt _ _ rfl]

end Rejoin

section Loop

/-- The room the rest of the loop needs: the content `c`, a separator if
something is still to be appended after it, and the iterator state `s`. -/
def loopRoom (c s : List UInt8) : Nat :=
  c.length + (if needsSeparator c = true ∧ s ≠ [] then 1 else 0) + s.length

/-- The push of one step fits in the room of the loop, and the room needed
afterwards is no larger. -/
theorem loopRoom_step (c : List UInt8) {s item rest : List UInt8}
    (h : Iter.step s = some (item, rest)) :
    (item = [slash] ∧ 1 ≤ loopRoom c s ∨ item ≠ [slash] ∧
      c.length + (if needsSeparator c then 1 else 0) + item.length ≤ loopRoom c s) ∧
    loopRoom (pushContent c item) rest ≤ loopRoom c s := by
  rcases Iter.step_eq_some h with ⟨rfl, rfl⟩ | ⟨h0, hw, hs⟩
  · have hsep : needsSeparator [slash] = false := by decide
    refine ⟨.inl ⟨rfl, by simp only [loopRoom, List.length_cons]; omega⟩, ?_⟩
    simp only [loopRoom, pushContent_slash, hsep, List.length_cons]
    split_ifs <;> simp_all <;> omega
  · have h1 : item ≠ [slash] := fun h => hw (by simp [h])
    rw [pushContent_of_ne h0 h1]
    rcases hs with ⟨rfl, rfl⟩ | rfl
    · refine ⟨.inr ⟨h1, by simp [loopRoom, h0]⟩, ?_⟩
      simp only [loopRoom, List.length_append]
      split_ifs <;> simp_all
    · refine ⟨.inr ⟨h1, ?_⟩, ?_⟩
      · simp only [loopRoom, List.length_append, List.length_cons]
        split_ifs <;> simp_all
      · simp only [loopRoom, List.length_append, List.length_cons]
        split_ifs <;> simp_all <;> omega

/-- Where the loop over `iter` stops: `done` with the buffer once `next` has
returned `None`, or `outOfFuel` with the iterator state and the buffer when the
bound on the calls of `next` ran out first. -/
inductive LoopExit (pathMax : Nat) where
  | done (buf : PathBuf pathMax)
  | outOfFuel (path : List UInt8) (buf : PathBuf pathMax)

/-- The buffer the loop stopped with. -/
def LoopExit.buf : LoopExit pathMax → PathBuf pathMax
  | .done buf => buf
  | .outOfFuel _ buf => buf

/-- The loop `for item in path.iter() { buf.push(&item) }` from the iterator
state `path`, with `fuel` bounding the calls of `next`. -/
def Iter.pushAll (pathMax : Nat) :
    Nat → List UInt8 → PathBuf pathMax → Except String (LoopExit pathMax)
  | 0, path, buf => .ok (.outOfFuel path buf)
  | fuel + 1, path, buf => do
      let (item, path) ← Iter.next pathMax path
      match item with
      | none => .ok (.done buf)
      | some item =>
          let buf ← buf.push item.deref
          Iter.pushAll pathMax fuel path buf

theorem components_length_le (s : List UInt8) : (components s).length ≤ s.length := by
  induction s using Iter.step_induction with
  | nil => simp [components_nil]
  | step s item rest hstep ih =>
      rw [components_of_step hstep, List.length_cons]
      exact ih.trans_lt (Iter.step_length hstep)

theorem eq_nil_of_components_eq_nil {s : List UInt8} (h : components s = []) : s = [] := by
  cases hstep : Iter.step s with
  | none => exact Iter.step_eq_none_iff.1 hstep
  | some parts =>
      obtain ⟨item, rest⟩ := parts
      simp [components_of_step hstep] at h

/-- The run lemma of the loop: while what is left fits in the array, `fuel`
runs push the first `fuel` components; the loop is out of fuel, with the other
components still to come, unless `fuel` exceeds their number, and then it is
done. -/
theorem Iter.pushAll_run {s : List UInt8} (hs : (⟨s⟩ : Path).WellFormed) {b : PathBuf pathMax}
    (hb : b.Inv) (hroom : loopRoom b.deref.bytes s ≤ pathMax) (fuel : Nat) :
    ∃ r, Iter.pushAll pathMax fuel s b = .ok r ∧ r.buf.Inv ∧
      r.buf.deref.bytes = ((components s).take fuel).foldl pushContent b.deref.bytes ∧
      (fuel ≤ (components s).length →
        ∃ s', r = .outOfFuel s' r.buf ∧ components s' = (components s).drop fuel) ∧
      ((components s).length < fuel → r = .done r.buf) := by
  induction fuel generalizing s b with
  | zero => exact ⟨.outOfFuel s b, rfl, hb, rfl, fun _ => ⟨s, rfl, rfl⟩, fun h => absurd h (by omega)⟩
  | succ fuel ih =>
    cases hstep : Iter.step s with
    | none =>
        obtain rfl := Iter.step_eq_none_iff.1 hstep
        exact ⟨.done b, by simp [Iter.pushAll, Iter.next_eq_step, hstep], hb,
          by simp [components_nil, LoopExit.buf], by simp [components_nil], fun _ => rfl⟩
    | some parts =>
        obtain ⟨item, rest⟩ := parts
        obtain ⟨hitem, hrest⟩ := Iter.step_sublist hstep
        obtain ⟨hfit, hroom'⟩ := loopRoom_step b.deref.bytes hstep
        have hv : (⟨item⟩ : Path).Valid pathMax :=
          ⟨hs.of_sublist hitem, hitem.length_le.trans (by unfold loopRoom at hroom; omega)⟩
        obtain ⟨b1, hpush, hb1, hc1⟩ := PathBuf.push_spec hb hv.toWellFormed
          (hfit.imp (fun h => ⟨h.1, h.2.trans hroom⟩) (fun h => ⟨h.1, h.2.trans hroom⟩))
        obtain ⟨r, hrun, hr, hc, hout, hdone⟩ := ih (hs.of_sublist hrest) hb1
          (by rw [hc1]; exact hroom'.trans hroom)
        rw [components_of_step hstep]
        refine ⟨r, by simp [Iter.pushAll, Iter.next_of_step hstep hv, hpush, hrun], hr,
          by rw [hc, hc1]; rfl, fun h => hout (by simpa using h), fun h => hdone (by simpa using h)⟩

/-- With more fuel than the state has bytes, the loop ends, and refines
`rejoin` as long as what is left fits in the array. -/
theorem Iter.pushAll_spec {fuel : Nat} {s : List UInt8} (hs : (⟨s⟩ : Path).WellFormed)
    {b : PathBuf pathMax} (hb : b.Inv) (hroom : loopRoom b.deref.bytes s ≤ pathMax)
    (hfuel : s.length < fuel) :
    ∃ b', Iter.pushAll pathMax fuel s b = .ok (.done b') ∧ b'.Inv ∧
      b'.deref.bytes = rejoin b.deref.bytes s := by
  have hlen := (components_length_le s).trans_lt hfuel
  obtain ⟨r, hrun, hr, hc, -, hdone⟩ := Iter.pushAll_run hs hb hroom fuel
  refine ⟨r.buf, hrun.trans (congrArg _ (hdone hlen)), hr, ?_⟩
  rw [hc, List.take_of_length_le hlen.le, rejoin]

/-- Pushing the items of `p.iter()` one after the other onto an empty buffer
gives back `p` without its trailing `/` when `p` has no doubled separator; a
doubled separator makes the loop start again at the root, and the items
before it are lost. -/
theorem Iter.pushAll_new_iter (p : Path) (hp : p.Valid pathMax) (fuel : Nat)
    (hfuel : p.bytes.length < fuel) :
    ∃ b, Iter.pushAll pathMax fuel p.iter (PathBuf.new pathMax) = .ok (.done b) ∧
      (¬ [slash, slash] <:+: p.bytes → b.deref.bytes = stripTrailingSlash p.bytes) ∧
      ∀ u y, p.bytes = u ++ slash :: slash :: y →
        ∃ b', Iter.pushAll pathMax fuel (Path.iter ⟨slash :: y⟩) (PathBuf.new pathMax) =
          .ok (.done b') ∧ b'.deref = b.deref := by
  have hnew := @PathBuf.new_spec pathMax
  have hrun : ∀ s : List UInt8, (⟨s⟩ : Path).Valid pathMax → s.length < fuel →
      ∃ b, Iter.pushAll pathMax fuel s (PathBuf.new pathMax) = .ok (.done b) ∧
        b.deref.bytes = rejoin [] s := by
    intro s hs hf
    have hroom : loopRoom (PathBuf.new pathMax).deref.bytes s ≤ pathMax := by
      simpa [loopRoom, hnew.2, needsSeparator] using hs.length_le
    obtain ⟨b, hb, -, hc⟩ := Iter.pushAll_spec hs.toWellFormed hnew.1 hroom hf
    exact ⟨b, hb, by rw [hc, hnew.2]⟩
  obtain ⟨b, hb, hc⟩ := hrun p.bytes hp hfuel
  refine ⟨b, hb, fun hd => hc.trans (rejoin_nil_of_not_doubled hd), fun u y hu => ?_⟩
  have hsub : (slash :: y).Sublist p.bytes :=
    hu ▸ (List.sublist_cons_self _ _).trans (List.sublist_append_right _ _)
  obtain ⟨b', hb', hc'⟩ := hrun (slash :: y) (hp.of_sublist hsub) (hsub.length_le.trans_lt hfuel)
  exact ⟨b', hb', Path.ext (by rw [hc', hc, hu, rejoin_doubled, rejoin_slash_cons])⟩

/-- On `a//b` the loop ends with `/b`: the item `a` is dropped. -/
theorem Iter.pushAll_drops_before_doubled :
    ∃ b, Iter.pushAll 4 5 (Path.iter ⟨[97, slash, slash, 98]⟩) (PathBuf.new 4) = .ok (.done b) ∧
      b.deref.bytes = [slash, 98] :=
  ⟨_, rfl, rfl⟩

/-- The loop on `/a//b` with enough fuel. -/
theorem Iter.pushAll_new_iter_doubled :
    (⟨[slash, 97, slash, slash, 98]⟩ : Path).Valid 5 ∧ [slash, 97, slash, slash, 98].length < 6 ∧
      ∃ b, Iter.pushAll 5 6 (Path.iter ⟨[slash, 97, slash, slash, 98]⟩) (PathBuf.new 5) =
        .ok (.done b) ∧
        (¬ [slash, slash] <:+: [slash, 97, slash, slash, 98] →
          b.deref.bytes = stripTrailingSlash [slash, 97, slash, slash, 98]) ∧
        ∀ u y, [slash, 97, slash, slash, 98] = u ++ slash :: slash :: y →
          ∃ b', Iter.pushAll 5 6 (Path.iter ⟨slash :: y⟩) (PathBuf.new 5) = .ok (.done b') ∧
            b'.deref = b.deref :=
  ⟨by decide, by decide, Iter.pushAll_new_iter ⟨[slash, 97, slash, slash, 98]⟩ (by decide) 6 (by decide)⟩

end Loop

section Items

/-- The results of `n` successive calls of `Iter::next` on an iterator in state
`path`. -/
def Iter.nexts (pathMax : Nat) : Nat → List UInt8 →
    Except String (List (Option (PathBuf pathMax)))
  | 0, _ => .ok []
  | n + 1, path => do
      let (item, path) ← Iter.next pathMax path
      let items ← Iter.nexts pathMax n path
      .ok (item :: items)

/-- From a valid state, the `i`-th call of `next` yields the `i`-th component,
and `None` past the last one. -/
theorem Iter.nexts_spec {s : List UInt8} (hs : (⟨s⟩ : Path).Valid pathMax) (n : Nat) :
    ∃ items, Iter.nexts pathMax n s = .ok items ∧
      items.map (Option.map fun b => b.deref.bytes) =
        (List.range n).map fun i => (components s)[i]? := by
  induction n generalizing s with
  | zero => exact ⟨[], rfl, rfl⟩
  | succ n ih =>
    rw [List.range_succ_eq_map, List.map_cons, List.map_map]
    cases hstep : Iter.step s with
    | none =>
        obtain rfl := Iter.step_eq_none_iff.1 hstep
        obtain ⟨items, hrun, hmap⟩ := ih hs
        refine ⟨none :: items, by simp [Iter.nexts, Iter.next_eq_step, hstep, hrun], ?_⟩
        simp [hmap, components_nil, Function.comp_def]
    | some parts =>
        obtain ⟨item, rest⟩ := parts
        obtain ⟨hitem, hrest⟩ := Iter.step_sublist hstep
        have hv : (⟨item⟩ : Path).Valid pathMax := hs.of_sublist hitem
        obtain ⟨items, hrun, hmap⟩ := ih (hs.of_sublist hrest)
        refine ⟨some (PathBuf.ofContent item hv.length_le) :: items,
          by simp [Iter.nexts, Iter.next_of_step hstep hv, hrun], ?_⟩
        simp [hmap, components_of_step hstep, Function.comp_def]

/-- Every component is the root or a non-empty segment without `/`. -/
theorem mem_components {s c : List UInt8} (h : c ∈ components s) :
    c = [slash] ∨ c ≠ [] ∧ slash ∉ c := by
  induction s using Iter.step_induction with
  | nil => simp [components_nil] at h
  | step s item rest hstep ih =>
      rw [components_of_step hstep, List.mem_cons] at h
      rcases h with rfl | h
      · rcases Iter.step_eq_some hstep with ⟨rfl, -⟩ | ⟨h0, hw, -⟩
        exacts [.inl rfl, .inr ⟨h0, hw⟩]
      · exact ih h

/-- The items written out one after the other, each but the root followed by
a `/`. -/
def joinComponents (items : List (List UInt8)) : List UInt8 :=
  items.flatMap fun c => if c = [slash] then c else c ++ [slash]

/-- `s` followed by a `/`, unless it is empty or already ends with one. -/
def slashTerminated (s : List UInt8) : List UInt8 :=
  if s = [] ∨ s.getLast? = some slash then s else s ++ [slash]

theorem slashTerminated_append_slash_cons (w t : List UInt8) :
    slashTerminated (w ++ slash :: t) = w ++ slash :: slashTerminated t := by
  rcases List.eq_nil_or_concat t with rfl | ⟨l, x, rfl⟩
  · simp [slashTerminated]
  · rw [List.concat_eq_append]
    have hlast : (w ++ slash :: (l ++ [x])).getLast? = some x := by
      rw [← List.cons_append, ← List.append_assoc, List.getLast?_concat]
    simp only [slashTerminated, hlast, List.getLast?_concat]
    by_cases hx : x = slash <;> simp [hx]

theorem slashTerminated_word {w : List UInt8} (hw0 : w ≠ []) (hw : slash ∉ w) :
    slashTerminated w = w ++ [slash] := by
  have : w.getLast? ≠ some slash := fun h => hw (List.mem_of_getLast?_eq_some h)
  simp [slashTerminated, hw0, this]

/-- Writing out the components gives back the state, with a `/` added when it
does not end with one. -/
theorem joinComponents_components (s : List UInt8) :
    joinComponents (components s) = slashTerminated s := by
  induction s using Iter.step_induction with
  | nil => simp [components_nil, joinComponents, slashTerminated]
  | step s item rest hstep ih =>
      rw [components_of_step hstep, joinComponents, List.flatMap_cons, ← joinComponents, ih]
      rcases Iter.step_eq_some hstep with ⟨rfl, rfl⟩ | ⟨h0, hw, ⟨rfl, rfl⟩ | rfl⟩
      · rw [if_pos rfl]
        exact (slashTerminated_append_slash_cons [] rest).symm
      · have h1 : s ≠ [slash] := fun h => hw (by simp [h])
        rw [if_neg h1, slashTerminated_word h0 hw]
        simp [slashTerminated]
      · have h1 : item ≠ [slash] := fun h => hw (by simp [h])
        rw [if_neg h1, slashTerminated_append_slash_cons]
        simp

/-- Each item of `iter` is the root or a non-empty segment without `/`, and
writing the items out, each segment followed by a `/`, gives back the path,
with a `/` added when it does not end with one. -/
theorem Iter.items_spell_path (p : Path) (hp : p.Valid pathMax) :
    (∀ n, ∃ items, Iter.nexts pathMax n p.iter = .ok items ∧
      items.map (Option.map fun b => b.deref.bytes) =
        (List.range n).map fun i => (components p.bytes)[i]?) ∧
    (∀ c ∈ components p.bytes, c = [slash] ∨ c ≠ [] ∧ slash ∉ c) ∧
    (joinComponents (components p.bytes) = p.bytes ∨
      joinComponents (components p.bytes) = p.bytes ++ [slash]) := by
  refine ⟨Iter.nexts_spec hp, fun _ => mem_components, ?_⟩
  rw [joinComponents_components, slashTerminated]
  split_ifs
  exacts [.inl rfl, .inr rfl]

/-- The items of `/a`, with `PATH_MAX = 2`. -/
theorem Iter.items_spell_path_root :
    (⟨[slash, 97]⟩ : Path).Valid 2 ∧
    (∀ n, ∃ items : List (Option (PathBuf 2)),
      Iter.nexts 2 n (Path.iter ⟨[slash, 97]⟩) = .ok items ∧
      items.map (Option.map fun b => b.deref.bytes) =
        (List.range n).map fun i => (components [slash, 97])[i]?) ∧
    (∀ c ∈ components [slash, 97], c = [slash] ∨ c ≠ [] ∧ slash ∉ c) ∧
    (joinComponents (components [slash, 97]) = [slash, 97] ∨
      joinComponents (components [slash, 97]) = [slash, 97] ++ [slash]) :=
  ⟨by decide, Iter.items_spell_path ⟨[slash, 97]⟩ (by decide)⟩

end Items

section Ancestry

/-- A path in normal form: no doubled separator, and no trailing `/` unless it
is the root. -/
structure Normalized (s : List UInt8) : Prop where
  not_doubled : ¬ [slash, slash] <:+: s
  no_trailing : s = [slash] ∨ s.getLast? ≠ some slash

instance (s : List UInt8) : Decidable (Normalized s) :=
  decidable_of_iff (¬ [slash, slash] <:+: s ∧ (s = [slash] ∨ s.getLast? ≠ some slash))
    ⟨fun h => ⟨h.1, h.2⟩, fun h => ⟨h.1, h.2⟩⟩

/-- The contents of the buffer after each `push` of the loop over `items`,
from the content `c`. -/
def pushStates (c : List UInt8) : List (List UInt8) → List (List UInt8)
  | [] => []
  | q :: qs => pushContent c q :: pushStates (pushContent c q) qs

theorem pushStates_append_singleton (c : List UInt8) (l : List (List UInt8)) (q : List UInt8) :
    pushStates c (l ++ [q]) = pushStates c l ++ [pushContent (l.foldl pushContent c) q] := by
  induction l generalizing c with
  | nil => rfl
  | cons a l ih => simp [pushStates, ih]

theorem getElem?_pushStates (c : List UInt8) (l : List (List UInt8)) (j : Nat) :
    (pushStates c l)[j]? =
      if j < l.length then some ((l.take (j + 1)).foldl pushContent c) else none := by
  induction l generalizing c j with
  | nil => simp [pushStates]
  | cons q qs ih => cases j <;> simp [pushStates, ih]

/-- Read last first, the `i`-th state is the content after all items but the
last `i` are pushed. -/
theorem getElem?_reverse_pushStates (c : List UInt8) (l : List (List UInt8)) (i : Nat) :
    (pushStates c l).reverse[i]? =
      if i < l.length then some ((l.take (l.length - i)).foldl pushContent c) else none := by
  have hlen : (pushStates c l).length = l.length := by
    induction l generalizing c <;> simp [pushStates, *]
  split_ifs with hi
  · rw [List.getElem?_reverse (hlen ▸ hi), getElem?_pushStates, hlen, if_pos (by omega),
      show l.length - 1 - i + 1 = l.length - i by omega]
  · exact List.getElem?_eq_none (by simpa [hlen] using hi)

theorem Iter.step_word {w : List UInt8} (hw0 : w ≠ []) (hw : slash ∉ w) :
    Iter.step w = some (w, []) := by
  unfold Iter.step
  rw [if_neg hw0, if_neg (head_ne_slash_of_not_mem hw), splitOnce_eq_none_iff.2 hw]

theorem components_word {w : List UInt8} (hw0 : w ≠ []) (hw : slash ∉ w) : components w = [w] := by
  rw [components_of_step (Iter.step_word hw0 hw), components_nil]

theorem components_root : components [slash] = [[slash]] := by
  rw [components_of_step (Iter.step_slash_cons []), components_nil]

/-- Cutting the last segment off a path with no doubled separator cuts the
last item off its components. -/
theorem components_append_word {x y : List UInt8} (hx0 : x ≠ [])
    (hd : ¬ [slash, slash] <:+: x ++ slash :: y) (hy0 : y ≠ []) (hy : slash ∉ y) :
    components (x ++ slash :: y) = components x ++ [y] := by
  induction x using Iter.step_induction with
  | nil => exact absurd rfl hx0
  | step x item rest hstep ih =>
    rw [components_of_step hstep]
    rcases Iter.step_eq_some hstep with ⟨rfl, rfl⟩ | ⟨hw0, hw, ⟨rfl, rfl⟩ | rfl⟩
    · have hr0 : rest ≠ [] := by rintro rfl; exact hd ⟨[], y, by simp⟩
      rw [List.cons_append, components_of_step (Iter.step_slash_cons _),
        ih hr0 fun h => hd (h.trans ⟨[slash], [], by simp⟩), List.cons_append]
    · rw [components_of_step (Iter.step_word_slash hw0 hw y), components_word hy0 hy,
        components_nil]
      rfl
    · have hr0 : rest ≠ [] := by rintro rfl; exact hd ⟨item, y, by simp⟩
      rw [List.append_assoc, List.cons_append, components_of_step (Iter.step_word_slash hw0 hw _),
        ih hr0 fun h => hd (h.trans ⟨item ++ [slash], [], by simp⟩), List.cons_append]

theorem Normalized.rejoin_nil {x : List UInt8} (hx : Normalized x) (hx1 : x ≠ [slash]) :
    rejoin [] x = x := by
  rw [rejoin_nil_of_not_doubled hx.not_doubled, stripTrailingSlash,
    if_neg fun h => (hx.no_trailing.resolve_left hx1) h.2]

/-- The state `next` leaves is the content of the parent of the state it
started from, or empty when there is none. -/
theorem Ancestors.state_of_parent {s s' : List UInt8} (hv' : (⟨s'⟩ : Path).Valid pathMax)
    (hpar : Path.parent pathMax ⟨s⟩ =
      if s' = [] then .ok none else (PathBuf.fromBytes pathMax s').map some)
    {r : Option (PathBuf pathMax)} (h : Path.parent pathMax ⟨s⟩ = .ok r) :
    s' = (r.map fun q => q.deref.bytes).getD [] := by
  rw [h, PathBuf.fromBytes_of_valid hv', ok_map] at hpar
  split_ifs at hpar with h0
  · cases hpar
    exact h0
  · cases hpar
    simp

/-- One call of `next` on a non-empty path in normal form yields the path and
leaves the state whose loop states are those of the path but the last. -/
theorem Ancestors.next_pushStates {s : List UInt8} (hs : (⟨s⟩ : Path).Valid pathMax)
    (hn : Normalized s) (hne : s ≠ []) :
    ∃ s', (⟨s'⟩ : Path).Valid pathMax ∧ Normalized s' ∧
      Ancestors.next pathMax s = .ok (some (PathBuf.ofContent s hs.length_le), s') ∧
      pushStates [] (components s) = pushStates [] (components s') ++ [s] := by
  obtain ⟨s', hv', hnext, hpar⟩ := Ancestors.next_spec hs hne
  cases hsplit : rsplitOnce slash s with
  | none =>
      have hw := rsplitOnce_eq_none_iff.1 hsplit
      obtain rfl : s' = [] := by
        simpa using Ancestors.state_of_parent hv' hpar (Path.parent_of_slash_not_mem hw)
      refine ⟨_, hv', by decide, hnext, ?_⟩
      simp [components_word hne hw, components_nil, pushStates, pushContent_nil_left]
  | some parts =>
      obtain ⟨x, y⟩ := parts
      obtain ⟨rfl, hy⟩ := rsplitOnce_eq_some_iff.1 hsplit
      by_cases hy0 : y = []
      · subst hy0
        obtain rfl : x = [] := by
          rcases hn.no_trailing with h | h
          · simpa using h
          · simp at h
        have hpar0 : Path.parent pathMax ⟨[] ++ [slash]⟩ = .ok none := by
          rw [Path.parent_append_slash ⟨⟨List.not_mem_nil _, rfl⟩, Nat.zero_le _⟩,
            Path.parent_of_slash_not_mem (by simp)]
        obtain rfl : s' = [] := by simpa using Ancestors.state_of_parent hv' hpar hpar0
        exact ⟨_, hv', by decide, hnext, by simp [components_root, components_nil, pushStates, pushContent_slash]⟩
      have hlen := hs.length_le
      simp only [List.length_append, List.length_cons] at hlen
      by_cases hx0 : x = []
      · subst hx0
        obtain rfl : s' = [slash] := by
          simpa using Ancestors.state_of_parent hv' hpar (Path.parent_root_cons hy hy0 (by omega))
        refine ⟨_, hv', by decide, hnext, ?_⟩
        rw [List.nil_append, components_of_step (Iter.step_slash_cons y), components_word hy0 hy,
          components_root]
        simp [pushStates, pushContent_slash, pushContent_word _ hy0 hy, needsSeparator]
      · have hxv : (⟨x⟩ : Path).Valid pathMax := hs.of_sublist (List.sublist_append_left _ _)
        obtain rfl : s' = x := by
          simpa using Ancestors.state_of_parent hv' hpar (Path.parent_append_cons hxv hx0 hy hy0)
        have hlast : s'.getLast? ≠ some slash := fun h => by
          obtain ⟨x', rfl⟩ := List.getLast?_eq_some_iff.1 h
          exact hn.not_doubled ⟨x', y, by simp⟩
        have hxn : Normalized s' :=
          ⟨fun h => hn.not_doubled (h.trans (List.prefix_append _ _).isInfix), .inr hlast⟩
        have hx1 : s' ≠ [slash] := fun h => hlast (by simp [h])
        refine ⟨_, hv', hxn, hnext, ?_⟩
        rw [components_append_word hx0 hn.not_doubled hy0 hy, pushStates_append_singleton,
          ← rejoin, hxn.rejoin_nil hx1, pushContent_word _ hy0 hy,
          needsSeparator_iff.2 ⟨hx0, hlast⟩]
        simp

/-- On a path in normal form, `ancestors` yields, last first, the contents of
the abstract loop over the components from the empty content: the `i`-th call
of `next` returns the content after all components but the last `i` are
pushed, and `None` once every prefix is out. -/
theorem Ancestors.nexts_eq_pushStates (p : Path) (hp : p.Valid pathMax) (hn : Normalized p.bytes)
    (n : Nat) :
    ∃ items, Ancestors.nexts pathMax n p.ancestors = .ok items ∧
      items.map (Option.map fun b => b.deref.bytes) =
        (List.range n).map fun i => (pushStates [] (components p.bytes)).reverse[i]? := by
  obtain ⟨s⟩ := p
  induction n generalizing s with
  | zero => exact ⟨[], rfl, rfl⟩
  | succ n ih =>
    rw [List.range_succ_eq_map, List.map_cons, List.map_map]
    by_cases hne : s = []
    · subst hne
      obtain ⟨items, hrun, hmap⟩ := ih [] hp hn
      simp only [Path.ancestors] at hrun
      refine ⟨none :: items, by simp [Ancestors.nexts, Ancestors.next_nil, Path.ancestors, hrun], ?_⟩
      simp [hmap, components_nil, pushStates, Function.comp_def]
    · obtain ⟨s', hv', hn', hnext, hstates⟩ := Ancestors.next_pushStates hp hn hne
      obtain ⟨items, hrun, hmap⟩ := ih s' hv' hn'
      refine ⟨some (PathBuf.ofContent s hp.length_le) :: items, ?_, ?_⟩
      · simp only [Path.ancestors] at hrun ⊢
        simp [Ancestors.nexts, hnext, hrun]
      · simp [hmap, hstates, Function.comp_def]

/-- On a path in normal form, `ancestors` yields, last first, the buffers of
the loop `for item in path.iter() { buf.push(&item) }` from an empty buffer: the
loop empties the iterator in `k` runs, the `i`-th call of `next` returns the
buffer after the first `k - i` runs, and every call from the `k`-th on returns
`None`. -/
theorem Ancestors.nexts_eq_loop_buffers (p : Path) (hp : p.Valid pathMax)
    (hn : Normalized p.bytes) :
    ∃ k b, Iter.pushAll pathMax k p.iter (PathBuf.new pathMax) = .ok (.outOfFuel [] b) ∧
      ∀ n, ∃ items, Ancestors.nexts pathMax n p.ancestors = .ok items ∧
        items.map (Option.map fun b => b.deref.bytes) = (List.range n).map fun i =>
          if i < k then
            (Iter.pushAll pathMax (k - i) p.iter (PathBuf.new pathMax)).toOption.map
              fun r => r.buf.deref.bytes
          else none := by
  have hnew := @PathBuf.new_spec pathMax
  have hroom : loopRoom (PathBuf.new pathMax).deref.bytes p.bytes ≤ pathMax := by
    simpa [loopRoom, hnew.2, needsSeparator] using hp.length_le
  have hrun := Iter.pushAll_run hp.toWellFormed hnew.1 hroom
  obtain ⟨r, hr, -, -, hout, -⟩ := hrun (components p.bytes).length
  obtain ⟨s', hs', hc'⟩ := hout le_rfl
  obtain rfl : s' = [] := eq_nil_of_components_eq_nil (by rw [hc', List.drop_length])
  refine ⟨_, r.buf, hr.trans (congrArg _ hs'), fun n => ?_⟩
  obtain ⟨items, hitems, hmap⟩ := Ancestors.nexts_eq_pushStates p hp hn n
  refine ⟨items, hitems, hmap.trans (List.map_congr_left fun i _ => ?_)⟩
  rw [getElem?_reverse_pushStates]
  split_ifs
  · obtain ⟨r', hr', -, hc, -⟩ := hrun ((components p.bytes).length - i)
    simp [Path.iter, hr', hc, hnew.2]
  · rfl

/-- The ancestors of `/a/b`, with `PATH_MAX = 4`. -/
theorem Ancestors.nexts_eq_loop_buffers_abs :
    (⟨[slash, 97, slash, 98]⟩ : Path).Valid 4 ∧ Normalized [slash, 97, slash, 98] ∧
      ∃ k b, Iter.pushAll 4 k (Path.iter ⟨[slash, 97, slash, 98]⟩) (PathBuf.new 4) =
          .ok (.outOfFuel [] b) ∧
        ∀ n, ∃ items, Ancestors.nexts 4 n (Path.ancestors ⟨[slash, 97, slash, 98]⟩) = .ok items ∧
          items.map (Option.map fun b => b.deref.bytes) = (List.range n).map fun i =>
            if i < k then
              (Iter.pushAll 4 (k - i) (Path.iter ⟨[slash, 97, slash, 98]⟩) (PathBuf.new 4)).toOption.map
                fun r => r.buf.deref.bytes
            else none :=
  ⟨by decide, by decide, Ancestors.nexts_eq_loop_buffers ⟨[slash, 97, slash, 98]⟩ (by decide) (by decide)⟩

end Ancestry

end LittlefsPath
