/-
The representation invariant of `PathBuf` across the API of `path.rs`.  The
constructors establish it, `push` and `join` keep it, and every buffer that
`parent`, the two iterators and the serde visitor hand out has it, because
each of those is built by `PathBuf::from`.  A client that keeps one `PathBuf`
variable and clears it and pushes onto it keeps the invariant over any run,
and the content follows the abstract `pushContent` step by step.  On a valid
path, none of the borrowed-path operations panics.
-/
import LittlefsPath.Iter
import LittlefsPath.Serde

namespace LittlefsPath

variable {pathMax : Nat}

/-- What a client does with one `PathBuf` variable. -/
inductive Op where
  | clear
  | push (q : Path)
  deriving Repr

/-- One operation on the buffer. -/
def Op.apply (b : PathBuf pathMax) : Op → Except String (PathBuf pathMax)
  | .clear => .ok b.clear
  | .push q => b.push q

/-- A run of operations, stopped by the first panic. -/
def runOps : List Op → PathBuf pathMax → Except String (PathBuf pathMax)
  | [], b => .ok b
  | op :: ops, b => do
      let b ← Op.apply b op
      runOps ops b

/-- The abstract effect of an operation on the content. -/
def Op.content (c : List UInt8) : Op → List UInt8
  | .clear => []
  | .push q => pushContent c q.bytes

/-- The operation pushes a `Path` value, which is well formed. -/
def Op.WellFormed : Op → Prop
  | .clear => True
  | .push q => q.WellFormed

theorem Op.apply_spec {b b' : PathBuf pathMax} (hb : b.Inv) {op : Op} (hop : op.WellFormed)
    (h : Op.apply b op = .ok b') : b'.Inv ∧ b'.deref.bytes = op.content b.deref.bytes := by
  cases op with
  | clear =>
      cases h
      exact PathBuf.new_spec
  | push q => exact PathBuf.push_ok_spec hb hop h

/-- Over any run that returns, the buffer keeps its invariant and its content
is the abstract content of the run. -/
theorem runOps_spec {ops : List Op} (hops : ∀ op ∈ ops, op.WellFormed) {b b' : PathBuf pathMax}
    (hb : b.Inv) (h : runOps ops b = .ok b') :
    b'.Inv ∧ b'.deref.bytes = ops.foldl Op.content b.deref.bytes := by
  induction ops generalizing b with
  | nil =>
      cases h
      exact ⟨hb, rfl⟩
  | cons op ops ih =>
      obtain ⟨b1, h1, hrun⟩ := bind_eq_ok.1 h
      obtain ⟨hb1, hc1⟩ := Op.apply_spec hb (hops op (List.mem_cons_self op ops)) h1
      rw [List.foldl_cons, ← hc1]
      exact ih (fun op' hop' => hops op' (List.mem_cons_of_mem op hop')) hb1 hrun

/-- Every `PathBuf` that `path.rs` hands out, whenever the operation returns,
satisfies the representation invariant, and `Deref` reads its content as the
first `len - 1` bytes of the array. -/
theorem PathBuf.inv_of_every_op (pathMax : Nat) :
    (PathBuf.new pathMax).Inv ∧
    (∀ b : PathBuf pathMax, b.clear.Inv) ∧
    (∀ b : PathBuf pathMax, b.Inv → b.clone.Inv) ∧
    (∀ (p : Path) (b : PathBuf pathMax), p.WellFormed → PathBuf.fromPath pathMax p = .ok b →
      b.Inv) ∧
    (∀ bytes (b : PathBuf pathMax), PathBuf.fromBytes pathMax bytes = .ok b → b.Inv) ∧
    (∀ s (b : PathBuf pathMax), PathBuf.fromStr pathMax s = .ok b → b.Inv) ∧
    (∀ (b b' : PathBuf pathMax) (q : Path), b.Inv → q.WellFormed → b.push q = .ok b' →
      b'.Inv) ∧
    (∀ (d n : Path) (j : PathBuf pathMax), d.WellFormed → n.WellFormed →
      Path.join pathMax d n = .ok j → j.Inv) ∧
    (∀ (p : Path) (b : PathBuf pathMax), p.parent pathMax = .ok (some b) → b.Inv) ∧
    (∀ s s' (b : PathBuf pathMax), Ancestors.next pathMax s = .ok (some b, s') → b.Inv) ∧
    (∀ s s' (b : PathBuf pathMax), Iter.next pathMax s = .ok (some b, s') → b.Inv) ∧
    (∀ v (b : PathBuf pathMax), visitBytes pathMax v = .ok (.ok b) → b.Inv) ∧
    (∀ (ops : List Op) (b b' : PathBuf pathMax), b.Inv → (∀ op ∈ ops, op.WellFormed) →
      runOps ops b = .ok b' → b'.Inv) ∧
    (∀ b : PathBuf pathMax, b.Inv → b.deref.bytes = b.buf.take (b.len - 1)) :=
  ⟨PathBuf.new_spec.1,
    fun _ => PathBuf.new_spec.1,
    fun _ hb => hb,
    fun _ _ hp h => PathBuf.fromPath_inv hp h,
    fun _ _ h => PathBuf.fromBytes_inv h,
    fun _ _ h => PathBuf.fromStr_inv h,
    fun _ _ _ hb hq h => (PathBuf.push_ok_spec hb hq h).1,
    fun _ _ _ hd hn h => Path.join_inv hd hn h,
    fun p _ h => Path.parent_inv p h,
    fun _ _ _ h => Ancestors.next_inv h,
    fun _ _ _ h => Iter.next_inv h,
    fun _ _ h => visitBytes_inv h,
    fun _ _ _ hb hops h => (runOps_spec hops hb h).1,
    fun _ hb => hb.deref_bytes⟩

/-- On a valid path, `PathBuf::from`, `parent`, `file_name`, and every call of
`next` on `ancestors` and on `iter` return without panicking: the assertions
of the conversions they call cannot fail on the substrings they build. -/
theorem Path.valid_never_panics (p : Path) (hp : p.Valid pathMax) :
    (∃ b : PathBuf pathMax, PathBuf.fromPath pathMax p = .ok b) ∧
      (∃ r, p.parent pathMax = .ok r) ∧ (∃ r, p.fileName = .ok r) ∧
      (∀ n, ∃ items, Ancestors.nexts pathMax n p.ancestors = .ok items) ∧
      (∀ n, ∃ items, Iter.nexts pathMax n p.iter = .ok items) :=
  ⟨⟨_, PathBuf.fromPath_eq_ok_iff.2 ⟨hp.length_le, rfl⟩⟩, Path.parent_ok p hp,
    ⟨_, Path.fileName_eq p⟩,
    fun n => let ⟨_, h, _⟩ := Ancestors.nexts_spec hp n; ⟨_, h⟩,
    fun n => let ⟨_, h, _⟩ := Iter.nexts_spec hp n; ⟨_, h⟩⟩

/-- The operations on `/a`, with `PATH_MAX = 2`. -/
theorem Path.valid_never_panics_root :
    (⟨[slash, 97]⟩ : Path).Valid 2 ∧
      (∃ b : PathBuf 2, PathBuf.fromPath 2 ⟨[slash, 97]⟩ = .ok b) ∧
      (∃ r, Path.parent 2 ⟨[slash, 97]⟩ = .ok r) ∧ (∃ r, Path.fileName ⟨[slash, 97]⟩ = .ok r) ∧
      (∀ n, ∃ items, Ancestors.nexts 2 n (Path.ancestors ⟨[slash, 97]⟩) = .ok items) ∧
      (∀ n, ∃ items, Iter.nexts 2 n (Path.iter ⟨[slash, 97]⟩) = .ok items) :=
  ⟨by decide, Path.valid_never_panics ⟨[slash, 97]⟩ (by decide)⟩

/-- Every path `path.rs` builds without a check is one the checked
`Path::from_bytes_with_nul` accepts, with the same result: `Deref` of a buffer
with the invariant, over `buf[..len]`, and `file_name` of a valid path, over
the bytes after its last separator, terminator included. -/
theorem Path.unchecked_conversions_checked (pathMax : Nat) :
    (∀ b : PathBuf pathMax, b.Inv →
      Path.fromBytesWithNul pathMax (b.buf.take b.len) = .ok b.deref) ∧
    ∀ p n : Path, p.Valid pathMax → p.fileName = .ok (some n) →
      (∃ x, p.asStrRefWithTrailingNul = x ++ slash :: (n.bytes ++ [0]) ∧ slash ∉ n.bytes) ∧
        Path.fromBytesWithNul pathMax (n.bytes ++ [0]) = .ok n := by
  refine ⟨fun b hb => fromBytesWithNul_eq_ok_iff.2
    ⟨by rw [hb.take_len, hb.deref_bytes], hb.deref_valid⟩, fun p n hp hn => ?_⟩
  obtain ⟨x, hxy, hns, -⟩ := Path.fileName_eq_some hn
  have hsub : n.bytes.Sublist p.bytes := by
    rw [hxy]
    exact (List.sublist_cons_self _ _).trans (List.sublist_append_right _ _)
  exact ⟨⟨x, by simp [Path.asStrRefWithTrailingNul, hxy], hns⟩,
    fromBytesWithNul_eq_ok_iff.2 ⟨rfl, hp.of_sublist hsub⟩⟩

end LittlefsPath
