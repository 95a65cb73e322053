/-
The owned `PathBuf` of `path.rs`: an array of `PATH_MAX + 1` bytes and `len`,
the length of the C string it holds, terminator included.  The constructors
and `push` are modelled on the array as the code writes it (`copy_nonoverlapping`
and single-byte writes through a pointer), so the representation invariant is
a theorem about these writes.  A panic is `Except.error` with its message.
-/
import LittlefsPath.Path

namespace LittlefsPath

variable {pathMax : Nat}

/-- `PathBuf`: `buf` is the array `[c_char; PATH_MAX_PLUS_ONE]`, whose length
its type fixes. -/
@[ext]
structure PathBuf (pathMax : Nat) where
  buf : List UInt8
  len : Nat
  buf_length : buf.length = pathMax + 1

/-- `Deref for PathBuf`: the path over `buf[..len]`; its content is everything
before the last of these bytes (`CStr::to_bytes`). -/
def PathBuf.deref (self : PathBuf pathMax) : Path := ⟨(self.buf.take self.len).dropLast⟩

/-- `PartialEq for PathBuf`: compares the `&str` contents. -/
def PathBuf.eq (self other : PathBuf pathMax) : Bool := self.deref.bytes == other.deref.bytes

/-- The representation invariant of `PathBuf`. -/
structure PathBuf.Inv (b : PathBuf pathMax) : Prop where
  len_pos : 1 ≤ b.len
  len_le : b.len ≤ pathMax + 1
  terminated : b.buf[b.len - 1]? = some 0
  no_nul : 0 ∉ b.buf.take (b.len - 1)
  ascii : isAscii (b.buf.take (b.len - 1)) = true

/-- `ptr::copy_nonoverlapping(src, dst + off, src.len())`: the bytes of `src`
written into `dst` from index `off` on. -/
def copyNonoverlapping : List UInt8 → List UInt8 → Nat → List UInt8
  | [], dst, _ => dst
  | x :: src, dst, off => copyNonoverlapping src (dst.set off x) (off + 1)

@[simp] theorem length_copyNonoverlapping (src dst : List UInt8) (off : Nat) :
    (copyNonoverlapping src dst off).length = dst.length := by
  induction src generalizing dst off with
  | nil => rfl
  | cons x src ih => simp [copyNonoverlapping, ih]

/-- `PathBuf::new`. -/
def PathBuf.new (pathMax : Nat) : PathBuf pathMax :=
  ⟨List.replicate (pathMax + 1) 0, 1, List.length_replicate _ _⟩

/-- `PathBuf::clear`. -/
def PathBuf.clear (_self : PathBuf pathMax) : PathBuf pathMax :=
  ⟨List.replicate (pathMax + 1) 0, 1, List.length_replicate _ _⟩

/-- `strlen`: the number of bytes before the first NUL; `none` when the array
holds no NUL and the loop would read past its end. -/
def strlen : List UInt8 → Option Nat
  | [] => none
  | c :: s => if c = 0 then some 0 else (strlen s).map (· + 1)

/-- `PathBuf::from_buffer`: the array as the C library filled it, with `len`
counted by `strlen` and the terminator. -/
def PathBuf.fromBuffer (buf : List UInt8) (h : buf.length = pathMax + 1) :
    Option (PathBuf pathMax) :=
  (strlen buf).map fun n => ⟨buf, n + 1, h⟩

/-- The derived `Clone for PathBuf`: a copy of both fields. -/
def PathBuf.clone (self : PathBuf pathMax) : PathBuf pathMax := ⟨self.buf, self.len, self.buf_length⟩

/-- The buffer the constructors build for a content `c`: `c`, then zeros. -/
def PathBuf.ofContent (c : List UInt8) (h : c.length ≤ pathMax) : PathBuf pathMax :=
  ⟨c ++ List.replicate (pathMax + 1 - c.length) 0, c.length + 1, by simp; omega⟩

/-- The first step of `From<&[u8]>`: drop one trailing NUL. -/
def stripTrailingNul (bytes : List UInt8) : List UInt8 :=
  if bytes.getLast? = some 0 then bytes.dropLast else bytes

/-- `From<&Path> for PathBuf`: copies the content together with the NUL that
follows it in the path's memory. -/
def PathBuf.fromPath (pathMax : Nat) (path : Path) : Except String (PathBuf pathMax) :=
  let bytes := path.bytes
  let len := bytes.length
  if len ≤ pathMax then
    .ok ⟨copyNonoverlapping (bytes ++ [0]) (List.replicate (pathMax + 1) 0) 0, len + 1, by simp⟩
  else .error "assertion failed: len <= consts::PATH_MAX"

/-- `From<&[u8]> for PathBuf`: the bytes with or without a trailing NUL. -/
def PathBuf.fromBytes (pathMax : Nat) (bytes : List UInt8) : Except String (PathBuf pathMax) :=
  let bytes := stripTrailingNul bytes
  let hasNoEmbeddedNul := !bytes.any (· == 0)
  if !hasNoEmbeddedNul then .error "assertion failed: has_no_embedded_nul"
  else if bytes.length > pathMax then .error "assertion failed: len <= consts::PATH_MAX"
  else if !isAscii bytes then .error "assertion failed: bytes.is_ascii()"
  else .ok ⟨copyNonoverlapping bytes (List.replicate (pathMax + 1) 0) 0, bytes.length + 1, by simp⟩

/-- `From<&str> for PathBuf`, on the bytes of the string. -/
def PathBuf.fromStr (pathMax : Nat) (s : List UInt8) : Except String (PathBuf pathMax) :=
  PathBuf.fromBytes pathMax s

/-- The separator decision of `push`: the content is non-empty and its last
byte is not `/`. -/
def needsSeparator (content : List UInt8) : Bool :=
  (content.getLast?.map (· != slash)).getD false

/-- What `push` makes of a content `c` when it appends the path `q`: the
abstract model of `push`. -/
def pushContent (c q : List UInt8) : List UInt8 :=
  if q = [] then c
  else if q = [slash] then [slash]
  else c ++ (if needsSeparator c then [slash] else []) ++ q

/-- `PathBuf::push`.  The pointer `p` starts at `len - 1`, over the old
terminator; the separator, the bytes of `path` and a new terminator are
written from there. -/
def PathBuf.push (self : PathBuf pathMax) (path : Path) : Except String (PathBuf pathMax) :=
  if path.bytes = [] then .ok self
  else if path.bytes = [slash] then
    if pathMax + 1 ≤ 1 then .error "index out of bounds: the len is 1 but the index is 1"
    else .ok ⟨(self.buf.set 0 slash).set 1 0, 2, by simp [self.buf_length]⟩
  else
    let src := path.bytes
    let needsSeparator := needsSeparator self.deref.bytes
    let slen := src.length
    if self.len + slen + (if needsSeparator then 1 else 0) ≤ pathMax + 1 then
      let len := self.len
      if needsSeparator then
        let buf := copyNonoverlapping src (self.buf.set (len - 1) slash) len
        .ok ⟨buf.set (len + slen) 0, self.len + 1 + slen, by simp [buf, self.buf_length]⟩
      else
        let buf := copyNonoverlapping src self.buf (len - 1)
        .ok ⟨buf.set (len - 1 + slen) 0, self.len + slen, by simp [buf, self.buf_length]⟩
    else
      .error ("assertion failed: self.len + slen + if needs_separator \x7b 1 \x7d " ++
        "else \x7b 0 \x7d <= consts::PATH_MAX_PLUS_ONE")

/-- `Path::join`. -/
def Path.join (pathMax : Nat) (self path : Path) : Except String (PathBuf pathMax) := do
  let p ← PathBuf.fromPath pathMax self
  p.push path

section Memory

theorem take_set_succ {l : List UInt8} {i : Nat} (h : i < l.length) (x : UInt8) :
    (l.set i x).take (i + 1) = l.take i ++ [x] := by
  rw [List.set_eq_take_append_cons_drop, if_pos h, List.take_append_eq_append_take]
  simp [Nat.min_eq_left (Nat.le_of_lt h), show i + 1 - i = 1 by omega]

theorem copyNonoverlapping_eq {src dst : List UInt8} {off : Nat}
    (h : off + src.length ≤ dst.length) :
    copyNonoverlapping src dst off = dst.take off ++ src ++ dst.drop (off + src.length) := by
  induction src generalizing dst off with
  | nil => simp [copyNonoverlapping]
  | cons x src ih =>
      simp only [List.length_cons] at h
      rw [copyNonoverlapping, ih (by simp; omega), take_set_succ (by omega),
        List.drop_set_of_lt _ _ (by omega)]
      simp [Nat.add_assoc, Nat.add_comm 1]

end Memory

section Invariant

theorem PathBuf.Inv.take_len {b : PathBuf pathMax} (hb : b.Inv) :
    b.buf.take b.len = b.buf.take (b.len - 1) ++ [0] := by
  have h := @List.take_succ _ b.buf (b.len - 1)
  rw [hb.terminated, Nat.sub_add_cancel hb.len_pos] at h
  exact h

theorem PathBuf.Inv.deref_bytes {b : PathBuf pathMax} (hb : b.Inv) :
    b.deref.bytes = b.buf.take (b.len - 1) := by
  rw [PathBuf.deref, hb.take_len, List.dropLast_concat]

theorem PathBuf.Inv.deref_valid {b : PathBuf pathMax} (hb : b.Inv) : b.deref.Valid pathMax := by
  have hc := hb.deref_bytes
  refine ⟨⟨hc ▸ hb.no_nul, hc ▸ hb.ascii⟩, ?_⟩
  rw [hc, List.length_take, b.buf_length]
  have := hb.len_le
  omega

/-- A buffer holds the content `c` when its first `len` bytes are `c` and a
terminator and `c` is a well-formed content. -/
theorem PathBuf.inv_of_take_len {b : PathBuf pathMax} {c : List UInt8}
    (hlen : b.len ≤ pathMax + 1) (htake : b.buf.take b.len = c ++ [0])
    (hc : (⟨c⟩ : Path).WellFormed) : b.Inv ∧ b.deref.bytes = c := by
  have hl : b.len = c.length + 1 := by
    have := congrArg List.length htake
    simp [b.buf_length] at this
    omega
  have hprefix : b.buf.take (b.len - 1) = c := by
    rw [← Nat.min_eq_left (Nat.sub_le b.len 1), ← List.take_take, htake,
      show b.len - 1 = c.length by omega, List.take_left]
  refine ⟨⟨by omega, hlen, ?_, hprefix ▸ hc.no_nul, hprefix ▸ hc.ascii⟩, ?_⟩
  · have h := @List.getElem?_take _ b.buf b.len (b.len - 1)
    rw [if_pos (by omega), htake, show b.len - 1 = c.length by omega,
      List.getElem?_concat_length] at h
    rw [show b.len - 1 = c.length by omega]
    exact h.symm
  · rw [PathBuf.deref, htake, List.dropLast_concat]

theorem take_copyNonoverlapping {src dst : List UInt8} {off : Nat}
    (h : off + src.length ≤ dst.length) :
    (copyNonoverlapping src dst off).take (off + src.length) = dst.take off ++ src := by
  rw [copyNonoverlapping_eq h, List.take_left' (by simp; omega)]

@[simp] theorem PathBuf.ofContent_deref {c : List UInt8} (h : c.length ≤ pathMax) :
    (PathBuf.ofContent c h).deref = ⟨c⟩ := by
  have hz : pathMax + 1 - c.length = (pathMax - c.length) + 1 := by omega
  simp [PathBuf.ofContent, PathBuf.deref, hz, List.replicate_succ,
    List.take_append_eq_append_take]

theorem PathBuf.ofContent_spec {c : List UInt8} (h : c.length ≤ pathMax)
    (hc : (⟨c⟩ : Path).WellFormed) :
    (PathBuf.ofContent c h).Inv ∧ (PathBuf.ofContent c h).deref.bytes = c := by
  apply PathBuf.inv_of_take_len (by simp [PathBuf.ofContent]; omega) _ hc
  have hz : pathMax + 1 - c.length = (pathMax - c.length) + 1 := by omega
  simp [PathBuf.ofContent, hz, List.replicate_succ, List.take_append_eq_append_take]

theorem PathBuf.new_spec : (PathBuf.new pathMax).Inv ∧ (PathBuf.new pathMax).deref.bytes = [] :=
  @PathBuf.ofContent_spec pathMax [] (Nat.zero_le _) ⟨by simp, rfl⟩

theorem copyNonoverlapping_replicate {c : List UInt8} (h : c.length ≤ pathMax + 1) :
    copyNonoverlapping c (List.replicate (pathMax + 1) 0) 0 =
      c ++ List.replicate (pathMax + 1 - c.length) 0 := by
  rw [copyNonoverlapping_eq (by simpa using h)]
  simp

theorem PathBuf.fromPath_eq_ok_iff {path : Path} {b : PathBuf pathMax} :
    PathBuf.fromPath pathMax path = .ok b ↔
      ∃ h : path.bytes.length ≤ pathMax, b = PathBuf.ofContent path.bytes h := by
  unfold PathBuf.fromPath
  by_cases h : path.bytes.length ≤ pathMax
  · have hz : [0] ++ List.replicate (pathMax + 1 - (path.bytes.length + 1)) 0 =
        List.replicate (pathMax + 1 - path.bytes.length) (0 : UInt8) := by
      rw [List.singleton_append, ← List.replicate_succ]
      congr 1
      omega
    have hbuf : copyNonoverlapping (path.bytes ++ [0]) (List.replicate (pathMax + 1) 0) 0 =
        (PathBuf.ofContent path.bytes h).buf := by
      rw [copyNonoverlapping_replicate (by simp; omega), List.length_append,
        List.length_singleton, List.append_assoc, hz]
      rfl
    simp only [h, if_true, Except.ok.injEq, exists_true_left]
    constructor <;> rintro rfl <;> exact PathBuf.ext hbuf rfl
  · simp [h]

theorem PathBuf.fromPath_of_length_gt {path : Path} (h : pathMax < path.bytes.length) :
    PathBuf.fromPath pathMax path = .error "assertion failed: len <= consts::PATH_MAX" :=
  if_neg (Nat.not_le.2 h)

/-- With `PATH_MAX = 255`, a literal of 256 ASCII bytes is accepted by the
literal constructor and rejected as too large by the checked one, and
`PathBuf::from` panics on the path it gives. -/
theorem fromStrWithNul_accepts_too_long :
    Path.fromStrWithNul (List.replicate 256 97 ++ [0]) = .ok ⟨List.replicate 256 97⟩ ∧
      Path.fromBytesWithNul 255 (List.replicate 256 97 ++ [0]) = .error .tooLarge ∧
      PathBuf.fromPath 255 ⟨List.replicate 256 97⟩ =
        .error "assertion failed: len <= consts::PATH_MAX" := by
  have hw : (⟨List.replicate 256 97⟩ : Path).WellFormed := by
    constructor
    · simp only [List.mem_replicate]; decide
    · simp only [isAscii, List.all_eq_true, List.mem_replicate]
      rintro _ ⟨-, rfl⟩
      rfl
  have hc : cstrFromBytesWithNul (List.replicate 256 97 ++ [0]) =
      some (List.replicate 256 97) :=
    cstrFromBytesWithNul_eq_some_iff.2 ⟨rfl, hw.no_nul⟩
  refine ⟨fromStrWithNul_eq_ok_iff.2 ⟨rfl, hw⟩, ?_, PathBuf.fromPath_of_length_gt
    (by show 255 < (List.replicate 256 (97 : UInt8)).length; rw [List.length_replicate]; decide)⟩
  simp only [Path.fromBytesWithNul, hc, Path.fromCstr, List.length_replicate]
  rfl

theorem PathBuf.fromBytes_eq_ok_iff {bytes : List UInt8} {b : PathBuf pathMax} :
    PathBuf.fromBytes pathMax bytes = .ok b ↔
      ∃ h : (⟨stripTrailingNul bytes⟩ : Path).Valid pathMax,
        b = PathBuf.ofContent (stripTrailingNul bytes) h.length_le := by
  simp only [PathBuf.fromBytes]
  by_cases hv : (⟨stripTrailingNul bytes⟩ : Path).Valid pathMax
  · have hn : (stripTrailingNul bytes).any (· == 0) = false :=
      List.any_eq_false.2 fun x hx hx0 => hv.no_nul (by rwa [beq_iff_eq.1 hx0] at hx)
    have hl : ¬ (stripTrailingNul bytes).length > pathMax := by simpa using hv.length_le
    have hbuf : copyNonoverlapping (stripTrailingNul bytes) (List.replicate (pathMax + 1) 0) 0 =
        (PathBuf.ofContent (stripTrailingNul bytes) hv.length_le).buf :=
      copyNonoverlapping_replicate (by have := hv.length_le; simp at this; omega)
    simp only [hn, hl, hv.ascii, Bool.not_false, Bool.not_true, Bool.false_eq_true, if_false,
      Except.ok.injEq, exists_prop_of_true hv]
    constructor <;> rintro rfl <;> exact PathBuf.ext hbuf rfl
  · have hok : ¬ ∃ h : (⟨stripTrailingNul bytes⟩ : Path).Valid pathMax,
        b = PathBuf.ofContent (stripTrailingNul bytes) h.length_le := fun ⟨h, _⟩ => hv h
    simp only [hok, iff_false]
    intro h
    split_ifs at h with hn hl ha
    exact hv ⟨⟨fun h0 => by simp_all, by simpa using ha⟩, Nat.le_of_not_lt hl⟩

theorem stripTrailingNul_of_no_nul {c : List UInt8} (h : 0 ∉ c) : stripTrailingNul c = c := by
  rcases List.eq_nil_or_concat c with rfl | ⟨l, x, rfl⟩
  · rfl
  · have hx : x ≠ 0 := fun hx => h (by simp [hx])
    simp [stripTrailingNul, hx]

theorem PathBuf.fromBytes_of_valid {c : List UInt8} (hc : (⟨c⟩ : Path).Valid pathMax) :
    PathBuf.fromBytes pathMax c = .ok (PathBuf.ofContent c hc.length_le) := by
  have hs := stripTrailingNul_of_no_nul hc.no_nul
  exact PathBuf.fromBytes_eq_ok_iff.2 ⟨hs ▸ hc, by simp only [hs]⟩

theorem PathBuf.fromBytes_deref {bytes : List UInt8} {b : PathBuf pathMax}
    (h : PathBuf.fromBytes pathMax bytes = .ok b) : b.deref = ⟨stripTrailingNul bytes⟩ := by
  obtain ⟨-, rfl⟩ := PathBuf.fromBytes_eq_ok_iff.1 h
  exact PathBuf.ofContent_deref _

/-- Every buffer `PathBuf::from(&[u8])` returns holds its content. -/
theorem PathBuf.fromBytes_inv {bytes : List UInt8} {b : PathBuf pathMax}
    (h : PathBuf.fromBytes pathMax bytes = .ok b) : b.Inv := by
  obtain ⟨hv, rfl⟩ := PathBuf.fromBytes_eq_ok_iff.1 h
  exact (PathBuf.ofContent_spec _ hv.toWellFormed).1

theorem PathBuf.fromStr_inv {s : List UInt8} {b : PathBuf pathMax}
    (h : PathBuf.fromStr pathMax s = .ok b) : b.Inv :=
  PathBuf.fromBytes_inv h

theorem PathBuf.fromPath_inv {path : Path} (hp : path.WellFormed) {b : PathBuf pathMax}
    (h : PathBuf.fromPath pathMax path = .ok b) : b.Inv := by
  obtain ⟨hl, rfl⟩ := PathBuf.fromPath_eq_ok_iff.1 h
  exact (PathBuf.ofContent_spec hl hp).1

/-- `v` with a NUL terminator added unless it already ends with one. -/
def nulTerminated (v : List UInt8) : List UInt8 := if v.getLast? = some 0 then v else v ++ [0]

theorem stripTrailingNul_append_nul (v : List UInt8) :
    stripTrailingNul v ++ [0] = nulTerminated v := by
  rcases List.eq_nil_or_concat v with rfl | ⟨l, x, rfl⟩
  · rfl
  · by_cases hx : x = 0 <;> simp [stripTrailingNul, nulTerminated, hx]

/-- `PathBuf::from(&[u8])` accepts exactly the byte strings that
`Path::from_bytes_with_nul` accepts once a terminator is added where there is
none, and both give the same path. -/
theorem PathBuf.fromBytes_ok_iff_fromBytesWithNul (pathMax : Nat) (v : List UInt8) :
    ((∃ b : PathBuf pathMax, PathBuf.fromBytes pathMax v = .ok b) ↔
        ∃ p, Path.fromBytesWithNul pathMax (nulTerminated v) = .ok p) ∧
      ∀ b p, PathBuf.fromBytes pathMax v = .ok b →
        Path.fromBytesWithNul pathMax (nulTerminated v) = .ok p → b.deref = p := by
  have hw : Path.fromBytesWithNul pathMax (nulTerminated v) = Path.fromBytesWithNul pathMax
      (stripTrailingNul v ++ [0]) := by rw [stripTrailingNul_append_nul]
  have hiff : ∀ p : Path, Path.fromBytesWithNul pathMax (nulTerminated v) = .ok p ↔
      p = ⟨stripTrailingNul v⟩ ∧ p.Valid pathMax := by
    intro p
    rw [hw, fromBytesWithNul_eq_ok_iff, List.append_cancel_right_eq, Path.ext_iff, eq_comm]
  refine ⟨⟨fun ⟨b, hb⟩ => ?_, fun ⟨p, hp⟩ => ?_⟩, fun b p hb hp => ?_⟩
  · exact ⟨_, (hiff _).2 ⟨rfl, (PathBuf.fromBytes_eq_ok_iff.1 hb).1⟩⟩
  · obtain ⟨rfl, hv⟩ := (hiff p).1 hp
    exact ⟨_, PathBuf.fromBytes_eq_ok_iff.2 ⟨hv, rfl⟩⟩
  · obtain ⟨-, rfl⟩ := PathBuf.fromBytes_eq_ok_iff.1 hb
    obtain ⟨rfl, -⟩ := (hiff p).1 hp
    exact PathBuf.ofContent_deref _

end Invariant

section Push

theorem needsSeparator_iff {c : List UInt8} :
    needsSeparator c = true ↔ c ≠ [] ∧ c.getLast? ≠ some slash := by
  rcases List.eq_nil_or_concat c with rfl | ⟨l, x, rfl⟩
  · simp [needsSeparator]
  · simp [needsSeparator]

theorem PathBuf.push_empty (b : PathBuf pathMax) {q : Path} (hq : q.bytes = []) :
    b.push q = .ok b := by
  simp [PathBuf.push, hq]

theorem PathBuf.push_root (b : PathBuf pathMax) {q : Path} (hq : q.bytes = [slash])
    (hpm : 1 ≤ pathMax) : ∃ b', b.push q = .ok b' ∧ b'.Inv ∧ b'.deref.bytes = [slash] := by
  simp only [PathBuf.push, hq, reduceCtorEq, if_false, if_true,
    show ¬ pathMax + 1 ≤ 1 by omega]
  refine ⟨_, rfl, PathBuf.inv_of_take_len (show 2 ≤ pathMax + 1 by omega) ?_ ⟨by decide, rfl⟩⟩
  have h0 : 0 < b.buf.length := by rw [b.buf_length]; omega
  have h1 : 1 < (b.buf.set 0 slash).length := by rw [List.length_set, b.buf_length]; omega
  show ((b.buf.set 0 slash).set 1 0).take (1 + 1) = [slash] ++ [0]
  rw [take_set_succ h1, take_set_succ h0]
  rfl

theorem PathBuf.push_append {b : PathBuf pathMax} (hb : b.Inv) {q : Path} (hq : q.WellFormed)
    (h0 : q.bytes ≠ []) (h1 : q.bytes ≠ [slash])
    (hfit : b.deref.bytes.length + (if needsSeparator b.deref.bytes then 1 else 0) +
      q.bytes.length ≤ pathMax) :
    ∃ b', b.push q = .ok b' ∧ b'.Inv ∧ b'.deref.bytes =
      b.deref.bytes ++ (if needsSeparator b.deref.bytes then [slash] else []) ++ q.bytes := by
  have hc := hb.deref_bytes
  have hlen : b.deref.bytes.length = b.len - 1 := by
    rw [hc, List.length_take, b.buf_length]; have := hb.len_le; omega
  have hN := b.buf_length
  have hw : (⟨b.deref.bytes⟩ : Path).WellFormed := ⟨hc ▸ hb.no_nul, hc ▸ hb.ascii⟩
  simp only [PathBuf.push, h0, h1, if_false]
  cases hsep : needsSeparator b.deref.bytes
  · simp only [hsep, Bool.false_eq_true, ↓reduceIte, List.append_nil] at hfit ⊢
    rw [if_pos (by omega)]
    refine ⟨_, rfl, ?_⟩
    apply PathBuf.inv_of_take_len (show b.len + q.bytes.length ≤ pathMax + 1 by omega)
    · show List.take (b.len + q.bytes.length)
          ((copyNonoverlapping q.bytes b.buf (b.len - 1)).set (b.len - 1 + q.bytes.length) 0) = _
      rw [show b.len + q.bytes.length = b.len - 1 + q.bytes.length + 1 by
        have := hb.len_pos; omega, take_set_succ (by simp; omega),
        take_copyNonoverlapping (by omega), ← hc]
    · exact ⟨by simp [hw.no_nul, hq.no_nul], by simp [hw.ascii, hq.ascii]⟩
  · simp only [hsep, ↓reduceIte] at hfit ⊢
    rw [if_pos (by omega)]
    refine ⟨_, rfl, ?_⟩
    apply PathBuf.inv_of_take_len (show b.len + 1 + q.bytes.length ≤ pathMax + 1 by omega)
    · show List.take (b.len + 1 + q.bytes.length)
          ((copyNonoverlapping q.bytes (b.buf.set (b.len - 1) slash) b.len).set
            (b.len + q.bytes.length) 0) = _
      rw [show b.len + 1 + q.bytes.length = b.len + q.bytes.length + 1 by omega]
      have hset : (b.buf.set (b.len - 1) slash).take b.len = b.deref.bytes ++ [slash] := by
        have := take_set_succ (show b.len - 1 < b.buf.length by omega) slash
        rwa [Nat.sub_add_cancel hb.len_pos, ← hc] at this
      rw [take_set_succ (by simp; omega), take_copyNonoverlapping (by simp; omega), hset]
    · exact ⟨by simp [hw.no_nul, hq.no_nul], by simp [hw.ascii, hq.ascii]⟩

theorem PathBuf.push_overflow {b : PathBuf pathMax} (hb : b.Inv) {q : Path}
    (h0 : q.bytes ≠ []) (h1 : q.bytes ≠ [slash])
    (hover : pathMax < b.deref.bytes.length + (if needsSeparator b.deref.bytes then 1 else 0) +
      q.bytes.length) : ∃ msg, b.push q = .error msg := by
  have hlen : b.deref.bytes.length = b.len - 1 := by
    rw [hb.deref_bytes, List.length_take, b.buf_length]; have := hb.len_le; omega
  have hN := b.buf_length
  simp only [PathBuf.push, h0, h1, if_false]
  rw [if_neg (by have := hb.len_pos; omega)]
  exact ⟨_, rfl⟩

theorem pushContent_nil (c : List UInt8) : pushContent c [] = c := by simp [pushContent]

theorem pushContent_slash (c : List UInt8) : pushContent c [slash] = [slash] := by
  simp [pushContent]

theorem pushContent_of_ne {c q : List UInt8} (h0 : q ≠ []) (h1 : q ≠ [slash]) :
    pushContent c q = c ++ (if needsSeparator c then [slash] else []) ++ q := by
  simp [pushContent, h0, h1]

/-- `push` refines `pushContent` whenever the result fits in the array. -/
theorem PathBuf.push_spec {b : PathBuf pathMax} (hb : b.Inv) {q : Path} (hq : q.WellFormed)
    (hfit : q.bytes = [slash] ∧ 1 ≤ pathMax ∨ q.bytes ≠ [slash] ∧
      b.deref.bytes.length + (if needsSeparator b.deref.bytes then 1 else 0) +
        q.bytes.length ≤ pathMax) :
    ∃ b', b.push q = .ok b' ∧ b'.Inv ∧ b'.deref.bytes = pushContent b.deref.bytes q.bytes := by
  by_cases h0 : q.bytes = []
  · exact ⟨b, PathBuf.push_empty b h0, hb, by rw [h0, pushContent_nil]⟩
  rcases hfit with ⟨h1, hpm⟩ | ⟨h1, hfit⟩
  · obtain ⟨b', hb', hinv, hc⟩ := PathBuf.push_root b h1 hpm
    exact ⟨b', hb', hinv, by rw [hc, h1, pushContent_slash]⟩
  · obtain ⟨b', hb', hinv, hc⟩ := PathBuf.push_append hb hq h0 h1 hfit
    exact ⟨b', hb', hinv, by rw [hc, pushContent_of_ne h0 h1]⟩

theorem Path.join_append {d n : Path} (hd : d.WellFormed) (hn : n.WellFormed)
    (h0 : n.bytes ≠ []) (h1 : n.bytes ≠ [slash])
    (hfit : d.bytes.length + (if needsSeparator d.bytes then 1 else 0) + n.bytes.length ≤
      pathMax) :
    ∃ j, Path.join pathMax d n = .ok j ∧ j.Inv ∧
      j.deref.bytes = d.bytes ++ (if needsSeparator d.bytes then [slash] else []) ++ n.bytes := by
  have hd' : d.bytes.length ≤ pathMax := by omega
  have hfrom : PathBuf.fromPath pathMax d = .ok (PathBuf.ofContent d.bytes hd') :=
    PathBuf.fromPath_eq_ok_iff.2 ⟨hd', rfl⟩
  have hinv := (PathBuf.ofContent_spec hd' hd).1
  have hc : (PathBuf.ofContent d.bytes hd').deref.bytes = d.bytes := by simp
  obtain ⟨j, hj, hjinv, hjc⟩ := PathBuf.push_append hinv hn h0 h1 (by rw [hc]; exact hfit)
  rw [hc] at hjc
  exact ⟨j, by simp [Path.join, hfrom, bind, Except.bind, hj], hjinv, hjc⟩

/-- Whenever `push` returns, the buffer still holds its content, and that
content is what `pushContent` makes of the old one. -/
theorem PathBuf.push_ok_spec {b b' : PathBuf pathMax} (hb : b.Inv) {q : Path}
    (hq : q.WellFormed) (h : b.push q = .ok b') :
    b'.Inv ∧ b'.deref.bytes = pushContent b.deref.bytes q.bytes := by
  by_cases h0 : q.bytes = []
  · rw [PathBuf.push_empty b h0] at h
    cases h
    exact ⟨hb, by rw [h0, pushContent_nil]⟩
  have hfit : q.bytes = [slash] ∧ 1 ≤ pathMax ∨ q.bytes ≠ [slash] ∧
      b.deref.bytes.length + (if needsSeparator b.deref.bytes then 1 else 0) +
        q.bytes.length ≤ pathMax := by
    by_cases h1 : q.bytes = [slash]
    · refine .inl ⟨h1, Nat.pos_of_ne_zero fun hpm => ?_⟩
      rw [PathBuf.push, if_neg h0, if_pos h1, if_pos (by omega)] at h
      cases h
    · refine .inr ⟨h1, Nat.le_of_not_lt fun hover => ?_⟩
      obtain ⟨msg, hmsg⟩ := PathBuf.push_overflow hb h0 h1 hover
      rw [hmsg] at h
      cases h
  obtain ⟨b'', hpush, hspec⟩ := PathBuf.push_spec hb hq hfit
  rw [hpush] at h
  cases h
  exact hspec

theorem Path.join_inv {d n : Path} (hd : d.WellFormed) (hn : n.WellFormed)
    {j : PathBuf pathMax} (h : Path.join pathMax d n = .ok j) : j.Inv := by
  obtain ⟨b, hb, hpush⟩ := bind_eq_ok.1 h
  exact (PathBuf.push_ok_spec (PathBuf.fromPath_inv hd hb) hn hpush).1

/-- `push` panics exactly when the result would not fit in the array, and
otherwise leaves the content alone, resets it to the root, or appends the path
after at most one separator. -/
theorem PathBuf.push_panics_iff_overflow (b : PathBuf pathMax) (hb : b.Inv) (q : Path)
    (hq : q.Valid pathMax) :
    let c := b.deref.bytes
    let s := if c ≠ [] ∧ c.getLast? ≠ some slash then 1 else 0
    ((∃ msg, b.push q = .error msg) ↔
        q.bytes ≠ [] ∧ q.bytes ≠ [slash] ∧ pathMax < c.length + s + q.bytes.length) ∧
      ∀ b', b.push q = .ok b' →
        b'.deref.bytes = if q.bytes = [] then c else if q.bytes = [slash] then [slash]
          else c ++ (if s = 1 then [slash] else []) ++ q.bytes := by
  intro c s
  have hs : s = if needsSeparator c then 1 else 0 := by
    simp only [s, ← needsSeparator_iff]
  refine ⟨⟨fun ⟨msg, hmsg⟩ => ?_, fun ⟨h0, h1, hover⟩ =>
    PathBuf.push_overflow hb h0 h1 (hs ▸ hover)⟩, fun b' h => ?_⟩
  · have h0 : q.bytes ≠ [] := fun h0 => by
      rw [PathBuf.push_empty b h0] at hmsg
      cases hmsg
    have h1 : q.bytes ≠ [slash] := fun h1 => by
      obtain ⟨b', hpush, -⟩ := PathBuf.push_root b h1 (by simpa [h1] using hq.length_le)
      rw [hpush] at hmsg
      cases hmsg
    refine ⟨h0, h1, Nat.lt_of_not_le fun hfit => ?_⟩
    obtain ⟨b', hpush, -⟩ := PathBuf.push_append hb hq.toWellFormed h0 h1 (hs ▸ hfit)
    rw [hpush] at hmsg
    cases hmsg
  · rw [(PathBuf.push_ok_spec hb hq.toWellFormed h).2, pushContent, hs]
    cases needsSeparator c <;> simp

/-- `push` of `b` onto the buffer holding `a`, with `PATH_MAX = 3`. -/
theorem PathBuf.push_panics_iff_overflow_a_b :
    (@PathBuf.ofContent 3 [97] (by decide)).Inv ∧ (⟨[98]⟩ : Path).Valid 3 ∧
      (let c := (@PathBuf.ofContent 3 [97] (by decide)).deref.bytes
      let s := if c ≠ [] ∧ c.getLast? ≠ some slash then 1 else 0
      ((∃ msg, (@PathBuf.ofContent 3 [97] (by decide)).push ⟨[98]⟩ = .error msg) ↔
          ([98] : List UInt8) ≠ [] ∧ ([98] : List UInt8) ≠ [slash] ∧
            3 < c.length + s + ([98] : List UInt8).length) ∧
        ∀ b', (@PathBuf.ofContent 3 [97] (by decide)).push ⟨[98]⟩ = .ok b' →
          b'.deref.bytes = if ([98] : List UInt8) = [] then c
            else if ([98] : List UInt8) = [slash] then [slash]
            else c ++ (if s = 1 then [slash] else []) ++ [98]) :=
  have hb : (@PathBuf.ofContent 3 [97] (by decide)).Inv :=
    (PathBuf.ofContent_spec _ ⟨by decide, by decide⟩).1
  ⟨hb, by decide, PathBuf.push_panics_iff_overflow _ hb ⟨[98]⟩ (by decide)⟩

end Push

section Buffer

theorem strlen_eq_some_iff {s : List UInt8} {n : Nat} :
    strlen s = some n ↔ s[n]? = some 0 ∧ 0 ∉ s.take n := by
  induction s generalizing n with
  | nil => simp [strlen]
  | cons c s ih =>
      by_cases hc : c = 0
      · subst hc
        cases n <;> simp [strlen]
      · cases n with
        | zero => simp [strlen, hc]
        | succ k => simp [strlen, hc, ih, Ne.symm hc]

theorem strlen_isSome_iff {s : List UInt8} : (strlen s).isSome ↔ 0 ∈ s := by
  induction s with
  | nil => simp [strlen]
  | cons c s ih =>
      by_cases hc : c = 0
      · simp [strlen, hc]
      · simp [strlen, hc, ih, Ne.symm hc]

/-- `from_buffer` reads back every buffer with the invariant from its array
alone, whatever the array holds after the terminator. -/
theorem PathBuf.fromBuffer_buf {b : PathBuf pathMax} (hb : b.Inv) :
    PathBuf.fromBuffer b.buf b.buf_length = some b := by
  have hs : strlen b.buf = some (b.len - 1) := strlen_eq_some_iff.2 ⟨hb.terminated, hb.no_nul⟩
  simp only [PathBuf.fromBuffer, hs, Option.map_some', Nat.sub_add_cancel hb.len_pos]

/-- The buffer holding `a`, with `PATH_MAX = 3`. -/
theorem PathBuf.fromBuffer_buf_a :
    (@PathBuf.ofContent 3 [97] (by decide)).Inv ∧
      PathBuf.fromBuffer (@PathBuf.ofContent 3 [97] (by decide)).buf
          (@PathBuf.ofContent 3 [97] (by decide)).buf_length =
        some (@PathBuf.ofContent 3 [97] (by decide)) :=
  have hb : (@PathBuf.ofContent 3 [97] (by decide)).Inv :=
    (PathBuf.ofContent_spec _ ⟨by decide, by decide⟩).1
  ⟨hb, PathBuf.fromBuffer_buf hb⟩

/-- `from_buffer` stays inside the array exactly when the array holds a NUL.
The buffer it makes then holds the bytes before the first NUL, and it has the
invariant exactly when these bytes are ASCII: that is the one part of the
invariant `from_buffer` leaves to its caller. -/
theorem PathBuf.fromBuffer_spec (buf : List UInt8) (h : buf.length = pathMax + 1) :
    ((PathBuf.fromBuffer buf h).isSome ↔ 0 ∈ buf) ∧
      ∀ b, PathBuf.fromBuffer buf h = some b →
        b.deref.bytes ++ [0] <+: buf ∧ 0 ∉ b.deref.bytes ∧ (b.Inv ↔ isAscii b.deref.bytes = true) := by
  refine ⟨by simpa [PathBuf.fromBuffer] using strlen_isSome_iff, fun b hb => ?_⟩
  obtain ⟨n, hn, rfl⟩ := Option.map_eq_some'.1 hb
  obtain ⟨hz, hno⟩ := strlen_eq_some_iff.1 hn
  have hlt : n < buf.length := (List.getElem?_eq_some_iff.1 hz).1
  have htake : buf.take (n + 1) = buf.take n ++ [0] := by rw [List.take_succ, hz]; rfl
  have hderef : (⟨buf, n + 1, h⟩ : PathBuf pathMax).deref.bytes = buf.take n := by
    simp only [PathBuf.deref, htake, List.dropLast_concat]
  rw [hderef]
  refine ⟨htake ▸ List.take_prefix _ _, hno, fun hinv => by simpa using hinv.ascii, fun ha => ?_⟩
  exact ⟨by simp, show n + 1 ≤ pathMax + 1 by omega, by simpa using hz, by simpa using hno, by simpa using ha⟩

/-- The array `a`, NUL, NUL, NUL, with `PATH_MAX = 3`. -/
theorem PathBuf.fromBuffer_spec_a :
    ([97, 0, 0, 0] : List UInt8).length = 3 + 1 ∧
      (((@PathBuf.fromBuffer 3 [97, 0, 0, 0] rfl).isSome ↔ (0 : UInt8) ∈ [97, 0, 0, 0]) ∧
        ∀ b, @PathBuf.fromBuffer 3 [97, 0, 0, 0] rfl = some b →
          b.deref.bytes ++ [0] <+: [97, 0, 0, 0] ∧ 0 ∉ b.deref.bytes ∧
            (b.Inv ↔ isAscii b.deref.bytes = true)) :=
  ⟨rfl, PathBuf.fromBuffer_spec [97, 0, 0, 0] rfl⟩

end Buffer

end LittlefsPath
