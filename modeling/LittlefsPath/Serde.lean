/-
The serde glue of `PathBuf` (feature `serde`): `Serialize` writes the content
as a byte string, and the visitor of `Deserialize` makes a `PathBuf` of a byte
string through `From<&[u8]>` after one length check.
-/
import LittlefsPath.PathBuf

namespace LittlefsPath

variable {pathMax : Nat}

/-- `Serialize for PathBuf`: the bytes handed to `serialize_bytes`. -/
def PathBuf.serialize (self : PathBuf pathMax) : List UInt8 := self.deref.bytes

/-- The error the visitor returns: `E::invalid_length(len, &self)`, which
carries the length and the visitor's `expecting` text. -/
inductive DeError where
  | invalidLength (len : Nat) (expected : String)
deriving DecidableEq, Repr

/-- `ValueVisitor::expecting`. -/
def expecting : String := "a path buffer"

/-- `ValueVisitor::visit_bytes`. -/
def visitBytes (pathMax : Nat) (v : List UInt8) :
    Except String (Except DeError (PathBuf pathMax)) :=
  if v.length > pathMax then .ok (.error (.invalidLength v.length expecting))
  else (PathBuf.fromBytes pathMax v).map .ok

theorem visitBytes_eq_ok_ok_iff {v : List UInt8} {b : PathBuf pathMax} :
    visitBytes pathMax v = .ok (.ok b) ↔
      v.length ≤ pathMax ∧ PathBuf.fromBytes pathMax v = .ok b := by
  unfold visitBytes
  by_cases hl : v.length > pathMax
  · simp [hl]
  · cases h : PathBuf.fromBytes pathMax v <;> simp [hl, Nat.le_of_not_lt hl]

theorem visitBytes_inv {v : List UInt8} {b : PathBuf pathMax}
    (h : visitBytes pathMax v = .ok (.ok b)) : b.Inv := by
  unfold visitBytes at h
  split_ifs at h
  · cases h
  · obtain ⟨b', hb', hbb⟩ := map_eq_ok.1 h
    cases hbb
    exact PathBuf.fromBytes_inv hb'

/-- The visitor guards only the length: it panics on every byte string of at
most `PATH_MAX` bytes that `From<&[u8]>` rejects. -/
theorem visitBytes_panics_iff {v : List UInt8} :
    (∃ msg, visitBytes pathMax v = .error msg) ↔
      v.length ≤ pathMax ∧ ¬ (⟨stripTrailingNul v⟩ : Path).Valid pathMax := by
  unfold visitBytes
  by_cases hl : v.length > pathMax
  · simp [hl]
  · simp only [hl, if_false, Nat.le_of_not_lt hl, true_and]
    cases h : PathBuf.fromBytes pathMax v with
    | error e =>
        simp only [error_map, Except.error.injEq, exists_eq', true_iff]
        exact fun hv => nomatch h.symm.trans (PathBuf.fromBytes_eq_ok_iff.2 ⟨hv, rfl⟩)
    | ok b =>
        simp only [ok_map, reduceCtorEq, exists_false, false_iff, not_not]
        exact (PathBuf.fromBytes_eq_ok_iff.1 h).1

/-- Deserializing the bytes that `Serialize` writes gives back a buffer equal
to the one serialized. -/
theorem visitBytes_serialize (b : PathBuf pathMax) (hb : b.Inv) :
    ∃ b', visitBytes pathMax b.serialize = .ok (.ok b') ∧ b'.eq b = true := by
  have hv : (⟨b.serialize⟩ : Path).Valid pathMax := hb.deref_valid
  refine ⟨PathBuf.ofContent b.serialize hv.length_le,
    visitBytes_eq_ok_ok_iff.2 ⟨hv.length_le, PathBuf.fromBytes_of_valid hv⟩, ?_⟩
  simp [PathBuf.eq, PathBuf.serialize]

/-- The round trip of the buffer holding `a`, with `PATH_MAX = 3`. -/
theorem visitBytes_serialize_a :
    (@PathBuf.ofContent 3 [97] (by decide)).Inv ∧
      ∃ b', visitBytes 3 (@PathBuf.ofContent 3 [97] (by decide)).serialize = .ok (.ok b') ∧
        b'.eq (@PathBuf.ofContent 3 [97] (by decide)) = true :=
  have hb : (@PathBuf.ofContent 3 [97] (by decide)).Inv :=
    (PathBuf.ofContent_spec _ ⟨by decide, by decide⟩).1
  ⟨hb, visitBytes_serialize _ hb⟩

/-- The visitor accepts exactly the bytes `Serialize` writes for a buffer with
the invariant, and these bytes followed by a NUL when the whole is at most
`PATH_MAX` bytes long: the length check counts the terminator, so the
terminated bytes of a path of `PATH_MAX` bytes are refused. -/
theorem visitBytes_accepts_iff (pathMax : Nat) (v : List UInt8) :
    (∃ b, visitBytes pathMax v = .ok (.ok b)) ↔
      ∃ b : PathBuf pathMax, b.Inv ∧
        (v = b.serialize ∨ v = b.serialize ++ [0] ∧ v.length ≤ pathMax) := by
  constructor
  · rintro ⟨b, h⟩
    obtain ⟨hl, hb⟩ := visitBytes_eq_ok_ok_iff.1 h
    refine ⟨b, PathBuf.fromBytes_inv hb, ?_⟩
    rw [PathBuf.serialize, PathBuf.fromBytes_deref hb, stripTrailingNul]
    split_ifs with h0
    · obtain ⟨v', rfl⟩ := List.getLast?_eq_some_iff.1 h0
      exact .inr ⟨by rw [List.dropLast_concat], hl⟩
    · exact .inl rfl
  · rintro ⟨b, hb, rfl | ⟨rfl, hl⟩⟩
    · have hv : (⟨b.serialize⟩ : Path).Valid pathMax := hb.deref_valid
      exact ⟨_, visitBytes_eq_ok_ok_iff.2 ⟨hv.length_le, PathBuf.fromBytes_of_valid hv⟩⟩
    · have hs : stripTrailingNul (b.serialize ++ [0]) = b.serialize := by
        simp [stripTrailingNul]
      have hv : (⟨stripTrailingNul (b.serialize ++ [0])⟩ : Path).Valid pathMax := by
        rw [hs]
        exact hb.deref_valid
      exact ⟨_, visitBytes_eq_ok_ok_iff.2 ⟨hl, PathBuf.fromBytes_eq_ok_iff.2 ⟨hv, rfl⟩⟩⟩

/-- With `PATH_MAX = 255`, the visitor panics on the one-byte string `[0x80]`,
which is not ASCII, instead of returning an error. -/
theorem visitBytes_panics_on_non_ascii :
    visitBytes 255 [128] = .error "assertion failed: bytes.is_ascii()" := rfl

end LittlefsPath
