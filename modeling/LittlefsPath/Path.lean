/-
The borrowed `Path` of `path.rs` and its constructors.  A `Path` wraps a
`CStr`; the model keeps the bytes before the terminator (`CStr::to_bytes`),
which is what the derived equality compares.  `PATH_MAX` comes from the crate's
`consts` module, outside `path.rs`, and is a parameter `pathMax` throughout.
A panic of the Rust code is `Except.error` carrying the panic message.
-/
import LittlefsPath.Bytes

namespace LittlefsPath

section Panic

variable {ε α β : Type}

@[simp] theorem ok_bind (a : α) (f : α → Except ε β) : (Except.ok a >>= f) = f a := rfl

@[simp] theorem error_bind (e : ε) (f : α → Except ε β) :
    (Except.error e >>= f) = Except.error e := rfl

@[simp] theorem ok_map (a : α) (f : α → β) : (Except.ok a : Except ε α).map f = .ok (f a) := rfl

@[simp] theorem error_map (e : ε) (f : α → β) :
    (Except.error e : Except ε α).map f = .error e := rfl

@[simp] theorem toOption_ok (a : α) : (Except.ok a : Except ε α).toOption = some a := rfl

@[simp] theorem toOption_error (e : ε) : (Except.error e : Except ε α).toOption = none := rfl

theorem bind_ok_eq_map (x : Except ε α) (f : α → β) :
    (x >>= fun a => Except.ok (f a)) = x.map f := by
  cases x <;> rfl

theorem bind_eq_ok {x : Except ε α} {f : α → Except ε β} {b : β} :
    (x >>= f) = .ok b ↔ ∃ a, x = .ok a ∧ f a = .ok b := by
  cases x <;> simp

theorem map_eq_ok {x : Except ε α} {f : α → β} {b : β} :
    x.map f = .ok b ↔ ∃ a, x = .ok a ∧ f a = b := by
  cases x <;> simp

end Panic

/-- `Path`: the bytes of its C string before the terminating NUL. -/
@[ext]
structure Path where
  bytes : List UInt8
deriving DecidableEq, Repr

/-- The safety contract of `Path`, kept by all its constructors: the content
has no NUL byte and only ASCII bytes. -/
structure Path.WellFormed (p : Path) : Prop where
  no_nul : 0 ∉ p.bytes
  ascii : isAscii p.bytes = true

/-- A path as `Path::from_cstr` admits it: well formed and at most `PATH_MAX`
bytes long. -/
structure Path.Valid (pathMax : Nat) (p : Path) extends Path.WellFormed p : Prop where
  length_le : p.bytes.length ≤ pathMax

instance (p : Path) : Decidable p.WellFormed :=
  decidable_of_iff (0 ∉ p.bytes ∧ isAscii p.bytes = true)
    ⟨fun h => ⟨h.1, h.2⟩, fun h => ⟨h.1, h.2⟩⟩

instance (pathMax : Nat) (p : Path) : Decidable (p.Valid pathMax) :=
  decidable_of_iff (p.WellFormed ∧ p.bytes.length ≤ pathMax)
    ⟨fun h => ⟨h.1, h.2⟩, fun h => ⟨h.1, h.2⟩⟩

theorem Path.WellFormed.of_sublist {x y : List UInt8} (h : x.Sublist y)
    (hy : (⟨y⟩ : Path).WellFormed) : (⟨x⟩ : Path).WellFormed :=
  ⟨fun hx => hy.no_nul (h.subset hx), List.all_eq_true.2 fun b hb =>
    List.all_eq_true.1 hy.ascii b (h.subset hb)⟩

theorem Path.Valid.of_sublist {pathMax : Nat} {x y : List UInt8} (h : x.Sublist y)
    (hy : (⟨y⟩ : Path).Valid pathMax) : (⟨x⟩ : Path).Valid pathMax :=
  ⟨hy.toWellFormed.of_sublist h, h.length_le.trans hy.length_le⟩

/-- `Path::is_empty`. -/
def Path.isEmpty (p : Path) : Bool := p.bytes.isEmpty

/-- `Path::as_str_ref_with_trailing_nul`: the content and its terminator. -/
def Path.asStrRefWithTrailingNul (p : Path) : List UInt8 := p.bytes ++ [0]

/-- `path::Error`. -/
inductive Error where
  | notAscii
  | notCStr
  | tooLarge
deriving DecidableEq, Repr

/-- `CStr::from_bytes_with_nul`: accepted when the first NUL byte (`memchr`) is
the last byte; the result is the content before it.  `path.rs` maps every
error to `Error::NotCStr`, so the error detail is not kept. -/
def cstrFromBytesWithNul (bytes : List UInt8) : Option (List UInt8) :=
  match splitOnce 0 bytes with
  | some (content, []) => some content
  | _ => none

/-- `Path::from_cstr`, on the content of the C string. -/
def Path.fromCstr (pathMax : Nat) (cstr : List UInt8) : Except Error Path :=
  if cstr.length > pathMax then .error .tooLarge
  else if isAscii cstr then .ok ⟨cstr⟩
  else .error .notAscii

/-- `Path::from_bytes_with_nul`. -/
def Path.fromBytesWithNul (pathMax : Nat) (bytes : List UInt8) : Except Error Path :=
  match cstrFromBytesWithNul bytes with
  | none => .error .notCStr
  | some cstr => Path.fromCstr pathMax cstr

/-- The `while` loop of `Path::from_str_with_nul`, entered at index `i`; it
returns the index it stops at. -/
def Path.fromStrWithNulLoop (bytes : List UInt8) (i : Nat) : Except String Nat :=
  if h : i < bytes.length - 1 then
    if bytes[i] = 0 then .error "must not contain null"
    else if !isAsciiByte bytes[i] then .error "must be ASCII"
    else Path.fromStrWithNulLoop bytes (i + 1)
  else .ok i
termination_by bytes.length - 1 - i

/-- `Path::from_str_with_nul`, on the bytes of the string (`s.as_bytes()`). -/
def Path.fromStrWithNul (bytes : List UInt8) : Except String Path := do
  let i ← Path.fromStrWithNulLoop bytes 0
  if bytes.isEmpty then .error "must not be empty"
  else
    match bytes[i]? with
    | none => .error "index out of bounds"
    | some last => if last = 0 then .ok ⟨bytes.dropLast⟩ else .error "last byte must be null"


private theorem dropLast_drop_eq_cons {bytes : List UInt8} {i : Nat}
    (h : i < bytes.length - 1) :
    bytes.dropLast.drop i = bytes[i] :: bytes.dropLast.drop (i + 1) := by
  have hi : i < bytes.dropLast.length := by simpa using h
  rw [List.drop_eq_getElem_cons hi, List.getElem_dropLast]

theorem fromStrWithNulLoop_eq_ok_iff (bytes : List UInt8) (i : Nat) {j : Nat} :
    Path.fromStrWithNulLoop bytes i = .ok j ↔
      (0 ∉ bytes.dropLast.drop i ∧ isAscii (bytes.dropLast.drop i) = true) ∧
        j = max i (bytes.length - 1) := by
  induction i using Path.fromStrWithNulLoop.induct bytes with
  | case1 i h hz =>
      rw [Path.fromStrWithNulLoop, dif_pos h, if_pos hz, dropLast_drop_eq_cons h]
      simp [hz, Except.error.injEq]
  | case2 i h hz ha =>
      rw [Path.fromStrWithNulLoop, dif_pos h, if_neg hz, if_pos ha, dropLast_drop_eq_cons h]
      simp_all
  | case3 i h hz ha ih =>
      rw [Path.fromStrWithNulLoop, dif_pos h, if_neg hz, if_neg ha, ih,
        dropLast_drop_eq_cons h]
      simp only [Bool.not_eq_true', Bool.not_eq_false] at ha
      simp [Ne.symm hz, ha, show max (i + 1) (bytes.length - 1) = max i (bytes.length - 1) by omega]
  | case4 i h =>
      have hdrop : bytes.dropLast.drop i = [] := List.drop_eq_nil_of_le (by simp; omega)
      rw [Path.fromStrWithNulLoop, dif_neg h, hdrop]
      simp [show max i (bytes.length - 1) = i by omega, eq_comm]


theorem cstrFromBytesWithNul_eq_some_iff {bytes content : List UInt8} :
    cstrFromBytesWithNul bytes = some content ↔ bytes = content ++ [0] ∧ 0 ∉ content := by
  unfold cstrFromBytesWithNul
  cases hs : splitOnce 0 bytes with
  | none =>
      simp only [reduceCtorEq, false_iff, not_and]
      rintro rfl
      exact absurd (splitOnce_eq_none_iff.1 hs) (by simp)
  | some parts =>
      obtain ⟨x, y⟩ := parts
      obtain ⟨rfl, hx⟩ := splitOnce_eq_some hs
      cases y with
      | nil =>
          simp only [Option.some.injEq, List.append_cancel_right_eq]
          exact ⟨fun h => ⟨h ▸ rfl, h ▸ hx⟩, fun h => h.1⟩
      | cons b y =>
          simp only [reduceCtorEq, false_iff, not_and]
          intro h hc
          have hlast := congrArg List.dropLast h
          rw [List.dropLast_append_cons, List.dropLast_concat] at hlast
          exact hc (hlast ▸ by simp)

theorem fromCstr_eq_ok_iff {pathMax : Nat} {cstr : List UInt8} {p : Path} :
    Path.fromCstr pathMax cstr = .ok p ↔
      p.bytes = cstr ∧ cstr.length ≤ pathMax ∧ isAscii cstr = true := by
  obtain ⟨bytes⟩ := p
  unfold Path.fromCstr
  by_cases hl : cstr.length > pathMax
  · simp [hl]
  · have hl' : cstr.length ≤ pathMax := by omega
    by_cases ha : isAscii cstr <;> simp [hl, hl', ha, eq_comm]

theorem fromBytesWithNul_eq_ok_iff {pathMax : Nat} {bytes : List UInt8} {p : Path} :
    Path.fromBytesWithNul pathMax bytes = .ok p ↔ bytes = p.bytes ++ [0] ∧ p.Valid pathMax := by
  unfold Path.fromBytesWithNul
  cases hc : cstrFromBytesWithNul bytes with
  | none =>
      simp only [reduceCtorEq, false_iff, not_and]
      intro hb hp
      exact absurd (cstrFromBytesWithNul_eq_some_iff.2 ⟨hb, hp.no_nul⟩) (by simp [hc])
  | some cstr =>
      obtain ⟨rfl, hno⟩ := cstrFromBytesWithNul_eq_some_iff.1 hc
      rw [fromCstr_eq_ok_iff]
      constructor
      · rintro ⟨rfl, hl, ha⟩
        exact ⟨rfl, ⟨⟨hno, ha⟩, hl⟩⟩
      · rintro ⟨hb, hv⟩
        obtain rfl : cstr = p.bytes := List.append_cancel_right hb
        exact ⟨rfl, hv.length_le, hv.ascii⟩


/-- `Path::from_bytes_with_nul` reports `NotCStr` when the bytes are not a
NUL-terminated string without an inner NUL, then `TooLarge` when the content
is longer than `PATH_MAX`, whatever its bytes, and `NotAscii` only for a C
string of allowed length with a non-ASCII byte. -/
theorem fromBytesWithNul_error_iff (pathMax : Nat) (bytes : List UInt8) :
    (Path.fromBytesWithNul pathMax bytes = .error .notCStr ↔ ∀ c, bytes = c ++ [0] → 0 ∈ c) ∧
    (Path.fromBytesWithNul pathMax bytes = .error .tooLarge ↔
      ∃ c, bytes = c ++ [0] ∧ 0 ∉ c ∧ pathMax < c.length) ∧
    (Path.fromBytesWithNul pathMax bytes = .error .notAscii ↔
      ∃ c, bytes = c ++ [0] ∧ 0 ∉ c ∧ c.length ≤ pathMax ∧ isAscii c = false) := by
  unfold Path.fromBytesWithNul
  cases hc : cstrFromBytesWithNul bytes with
  | none =>
      have hno : ∀ c, bytes = c ++ [0] → 0 ∈ c := fun c hb => by
        by_contra h
        rw [cstrFromBytesWithNul_eq_some_iff.2 ⟨hb, h⟩] at hc
        cases hc
      refine ⟨iff_of_true rfl hno, ?_, ?_⟩ <;>
        exact iff_of_false (by simp) fun ⟨c, hb, h, _⟩ => h (hno c hb)
  | some cstr =>
      obtain ⟨rfl, hno⟩ := cstrFromBytesWithNul_eq_some_iff.1 hc
      have hcancel : ∀ c, cstr ++ [0] = c ++ [0] ↔ c = cstr := fun c =>
        ⟨fun h => (List.append_cancel_right h).symm, fun h => h ▸ rfl⟩
      simp only [Path.fromCstr, hcancel, exists_eq_left, forall_eq, hno, not_false_eq_true,
        true_and, iff_false]
      by_cases hl : cstr.length > pathMax
      · simp [hl]
      · have hl' : cstr.length ≤ pathMax := by omega
        by_cases ha : isAscii cstr <;> simp [hl, hl', ha]

theorem fromStrWithNul_eq_ok_iff {bytes : List UInt8} {p : Path} :
    Path.fromStrWithNul bytes = .ok p ↔ bytes = p.bytes ++ [0] ∧ p.WellFormed := by
  rcases List.eq_nil_or_concat bytes with rfl | ⟨c, b, rfl⟩
  · simp [Path.fromStrWithNul, Path.fromStrWithNulLoop, bind, Except.bind]
  · rw [List.concat_eq_append]
    have hdrop : (c ++ [b]).dropLast = c := List.dropLast_concat
    by_cases hc : 0 ∉ c ∧ isAscii c = true
    · have hloop : Path.fromStrWithNulLoop (c ++ [b]) 0 = .ok c.length :=
        (fromStrWithNulLoop_eq_ok_iff _ 0).2 ⟨by simpa [hdrop] using hc, by simp⟩
      obtain ⟨bytes⟩ := p
      by_cases hb : b = 0
      · subst hb
        have hne : (c ++ [0]).isEmpty = false := by cases c <;> rfl
        simp only [Path.fromStrWithNul, hloop, bind, Except.bind, hdrop, hne,
          Bool.false_eq_true, if_false,
          List.getElem?_concat_length, if_true, Except.ok.injEq, Path.mk.injEq]
        exact ⟨fun h => ⟨h ▸ rfl, h ▸ ⟨hc.1, hc.2⟩⟩, fun h => List.append_cancel_right h.1⟩
      · simp [Path.fromStrWithNul, hloop, bind, Except.bind, hb, hdrop]
        intro h
        exact absurd (by simpa using (List.append_inj' h rfl).2) hb
    · cases hloop : Path.fromStrWithNulLoop (c ++ [b]) 0 with
      | ok i => exact absurd ((fromStrWithNulLoop_eq_ok_iff _ 0).1 hloop).1 (by simpa [hdrop] using hc)
      | error e =>
          simp only [Path.fromStrWithNul, hloop, bind, Except.bind, reduceCtorEq, false_iff, not_and]
          intro hbytes hp
          obtain rfl : c = p.bytes := List.append_inj_left' hbytes rfl
          exact hc ⟨hp.no_nul, hp.ascii⟩


/-- The literal constructor makes every check of `from_bytes_with_nul` except
the length check of `from_cstr`. -/
theorem fromBytesWithNul_eq_ok_iff_fromStrWithNul (pathMax : Nat) (s : List UInt8)
    (p : Path) :
    (Path.fromBytesWithNul pathMax s = .ok p ↔
      Path.fromStrWithNul s = .ok p ∧ p.bytes.length ≤ pathMax) ∧
    (Path.fromStrWithNul s = .ok p → pathMax < p.bytes.length →
      Path.fromBytesWithNul pathMax s = .error .tooLarge) := by
  refine ⟨?_, fun h hl => ?_⟩
  · rw [fromBytesWithNul_eq_ok_iff, fromStrWithNul_eq_ok_iff]
    exact ⟨fun ⟨h, hv⟩ => ⟨⟨h, hv.toWellFormed⟩, hv.length_le⟩,
      fun ⟨⟨h, hw⟩, hl⟩ => ⟨h, hw, hl⟩⟩
  · obtain ⟨rfl, hw⟩ := fromStrWithNul_eq_ok_iff.1 h
    have hc : cstrFromBytesWithNul (p.bytes ++ [0]) = some p.bytes :=
      cstrFromBytesWithNul_eq_some_iff.2 ⟨rfl, hw.no_nul⟩
    simp [Path.fromBytesWithNul, hc, Path.fromCstr, hl]

end LittlefsPath
