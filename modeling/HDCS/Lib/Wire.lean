import Mathlib.Algebra.Order.Ring.Nat
import Mathlib.Tactic.Ring

/-!
# Bytes on a wire

Numbers of a fixed width, the least significant byte first, buffers that things are copied
into, and streams. A reader
takes what it needs from the front of a stream and leaves the rest. If it reads
back what a writer wrote in front of any rest (`Reads`), then reading over and over
gives back everything that was written one after the other (`readAll_flatMap`).
-/

namespace Lib.Wire

open List

/-! ## Numbers -/

def encode : Nat → Nat → List UInt8
  | 0, _ => []
  | w + 1, n => UInt8.ofNat n :: encode w (n / 256)

def decode : List UInt8 → Nat
  | [] => 0
  | b :: bs => b.toNat + 256 * decode bs

@[simp] theorem length_encode : ∀ w n : Nat, (encode w n).length = w
  | 0, _ => rfl
  | w + 1, n => by rw [encode, length_cons, length_encode w]

theorem getElem?_encode : ∀ {w i : Nat} (n : Nat), i < w →
    (encode w n)[i]? = some (UInt8.ofNat (n / 256 ^ i))
  | _ + 1, 0, n, _ => by rw [encode, getElem?_cons_zero, pow_zero, Nat.div_one]
  | w + 1, i + 1, n, h => by
    rw [encode, getElem?_cons_succ, getElem?_encode _ (Nat.lt_of_succ_lt_succ h),
      Nat.div_div_eq_div_mul, pow_succ']

theorem decode_encode : ∀ {w n : Nat}, n < 256 ^ w → decode (encode w n) = n
  | 0, n, h => by
    have : n = 0 := by simpa using h
    rw [this]
    rfl
  | w + 1, n, h => by
    have hdiv : n / 256 < 256 ^ w := by
      rw [pow_succ] at h
      exact Nat.div_lt_of_lt_mul (by rw [Nat.mul_comm]; exact h)
    rw [encode, decode, decode_encode hdiv, UInt8.toNat_ofNat']
    exact Nat.mod_add_div n 256

theorem decode_encode_uint64 (n : UInt64) : UInt64.ofNat (decode (encode 8 n.toNat)) = n := by
  rw [decode_encode n.toNat_lt, UInt64.ofNat_toNat]

variable {α β : Type}

/-! ## Buffers -/

def overwrite (buf : List β) (off : Nat) (bytes : List β) : List β :=
  buf.take off ++ (bytes.take (buf.length - off) ++ buf.drop (off + bytes.length))

@[simp] theorem length_overwrite (buf : List β) (off : Nat) (bytes : List β) :
    (overwrite buf off bytes).length = buf.length := by
  rw [overwrite, length_append, length_append, length_take, length_take, length_drop]
  omega

theorem length_foldl_overwrite (off : α → Nat) (bytes : α → List β) :
    ∀ (as : List α) (buf : List β),
      (as.foldl (fun buf a => overwrite buf (off a) (bytes a)) buf).length = buf.length
  | [], _ => rfl
  | a :: as, buf => by
    rw [foldl_cons, length_foldl_overwrite off bytes as, length_overwrite]

theorem overwrite_append (pre buf : List β) (off : Nat) (bytes : List β) :
    overwrite (pre ++ buf) (pre.length + off) bytes = pre ++ overwrite buf off bytes := by
  have hroom : (pre ++ buf).length - (pre.length + off) = buf.length - off := by
    rw [length_append]
    omega
  rw [overwrite, hroom, take_length_add_append, Nat.add_assoc, drop_length_add_append, append_assoc]
  rfl

theorem foldl_overwrite_append (pre : List β) (off : α → Nat) (bytes : α → List β) :
    ∀ (as : List α) (buf : List β),
      as.foldl (fun buf a => overwrite buf (pre.length + off a) (bytes a)) (pre ++ buf)
        = pre ++ as.foldl (fun buf a => overwrite buf (off a) (bytes a)) buf
  | [], _ => rfl
  | a :: as, buf => by
    rw [foldl_cons, overwrite_append, foldl_overwrite_append pre off bytes as, foldl_cons]

theorem getElem?_overwrite {buf bytes : List β} {off i : Nat} (hi : i < bytes.length)
    (hfit : off + bytes.length ≤ buf.length) :
    (overwrite buf off bytes)[off + i]? = bytes[i]? := by
  have hoff : (buf.take off).length = off := by
    rw [length_take]
    omega
  rw [overwrite, getElem?_append_right (by omega), hoff, Nat.add_sub_cancel_left,
    take_of_length_le (by omega), getElem?_append_left hi]

theorem take_drop_overwrite {buf bytes : List β} {off : Nat}
    (hfit : off + bytes.length ≤ buf.length) :
    ((overwrite buf off bytes).drop off).take bytes.length = bytes := by
  have hoff : (buf.take off).length = off := by
    rw [length_take]
    omega
  have hall : bytes.take (buf.length - off) = bytes := take_of_length_le (by omega)
  rw [overwrite, drop_left' hoff, hall, take_left' rfl]

/-- A text in a field of a fixed width, with zeros behind it. -/
def field (width : Nat) (text : List UInt8) : List UInt8 :=
  text ++ List.replicate (width - text.length) 0

theorem length_field {width : Nat} {text : List UInt8} (h : text.length ≤ width) :
    (field width text).length = width := by
  rw [field, length_append, length_replicate]
  omega

theorem overwrite_zeros {width : Nat} {text : List UInt8} (h : text.length ≤ width)
    (rest : List UInt8) :
    overwrite (List.replicate width 0 ++ rest) 0 text = field width text ++ rest := by
  have hlen : (List.replicate width (0 : UInt8) ++ rest).length = width + rest.length := by
    rw [length_append, length_replicate]
  rw [overwrite, take_zero, nil_append, hlen, take_of_length_le (by omega),
    Nat.zero_add, drop_append_of_le_length (by rw [length_replicate]; exact h),
    drop_replicate, field, append_assoc]

def cString (bytes : List UInt8) : List UInt8 := bytes.takeWhile fun b => b ≠ 0

theorem cString_field {width : Nat} {text : List UInt8} (h : text.length < width)
    (hzero : 0 ∉ text) (rest : List UInt8) : cString (field width text ++ rest) = text := by
  have hinside : ∀ b ∈ text, decide (b ≠ 0) = true := by
    intro b hb
    exact decide_eq_true fun h0 => hzero (h0 ▸ hb)
  obtain ⟨k, hk⟩ : ∃ k, width - text.length = k + 1 := ⟨width - text.length - 1, by omega⟩
  rw [cString, field, hk, append_assoc, takeWhile_append_of_pos hinside,
    replicate_succ, cons_append, takeWhile_cons_of_neg (by simp), append_nil]

/-! ## Rows of fields -/

theorem drop_flatMap {write : α → List β} {width : Nat} : ∀ {as : List α} (i : Nat),
    (∀ a ∈ as, (write a).length = width) →
      (as.flatMap write).drop (width * i) = (as.drop i).flatMap write
  | _, 0, _ => rfl
  | [], i + 1, _ => by rw [flatMap_nil, drop_nil, drop_nil, flatMap_nil]
  | a :: as, i + 1, h => by
    have hskip : width * (i + 1) = (write a).length + width * i := by
      rw [h a mem_cons_self, Nat.mul_succ, Nat.add_comm]
    rw [flatMap_cons, hskip, drop_length_add_append,
      drop_flatMap i fun a' ha' => h a' (mem_cons_of_mem _ ha'), drop_succ_cons]

theorem foldl_overwrite_zeros (base width : Nat) :
    ∀ (texts : List (List UInt8)) (k : Nat) (pre : List UInt8), pre.length = base + width * k →
      (∀ text ∈ texts, text.length ≤ width) →
      (texts.zipIdx k).foldl (fun buf x => overwrite buf (base + width * x.2) x.1)
          (pre ++ List.replicate (width * texts.length) 0)
        = pre ++ texts.flatMap (field width)
  | [], _, pre, _, _ => by
    rw [length_nil, Nat.mul_zero, flatMap_nil]
    rfl
  | text :: texts, k, pre, hpre, h => by
    have htext := h text mem_cons_self
    have hroom : List.replicate (width * (text :: texts).length) (0 : UInt8)
        = List.replicate width 0 ++ List.replicate (width * texts.length) 0 := by
      rw [replicate_append_replicate, length_cons, Nat.mul_succ, Nat.add_comm]
    have hnext : (pre ++ field width text).length = base + width * (k + 1) := by
      rw [length_append, length_field htext, hpre, Nat.mul_succ, Nat.add_assoc]
    have hcopy := overwrite_append pre
      (List.replicate width 0 ++ List.replicate (width * texts.length) 0) 0 text
    rw [Nat.add_zero, overwrite_zeros htext] at hcopy
    rw [zipIdx_cons, foldl_cons, hroom]
    dsimp only
    rw [← hpre, hcopy, ← append_assoc, foldl_overwrite_zeros base width texts (k + 1) _ hnext
      fun text' h' => h text' (mem_cons_of_mem _ h'), append_assoc, flatMap_cons]

/-- **Reading back a row of fields.** -/
theorem map_drop_flatMap {write : α → List β} {read : List β → α} {width : Nat} {as : List α}
    (hwidth : ∀ a ∈ as, (write a).length = width)
    (hread : ∀ a ∈ as, ∀ rest, read (write a ++ rest) = a) :
    (List.range as.length).map (fun i => read ((as.flatMap write).drop (width * i))) = as := by
  apply ext_getElem
  · rw [length_map, length_range]
  · intro i _ hi
    rw [getElem_map, getElem_range, drop_flatMap i hwidth, drop_eq_getElem_cons hi, flatMap_cons]
    exact hread _ (getElem_mem hi) _

/-! ## Streams -/

def Reads (write : α → List β) (read : List β → Option (α × List β)) (a : α) : Prop :=
  write a ≠ [] ∧ ∀ rest, read (write a ++ rest) = some (a, rest)

def readAll (read : List β → Option (α × List β)) : Nat → List β → List α × List β
  | 0, stream => ([], stream)
  | rounds + 1, stream =>
    match read stream with
    | some (a, rest) =>
      let x := readAll read rounds rest
      (a :: x.1, x.2)
    | none => ([], stream)

/-- **Reading back a whole stream.** -/
theorem readAll_flatMap {write : α → List β} {read : List β → Option (α × List β)}
    (hnil : read [] = none) : ∀ {as : List α} {rounds : Nat}, (∀ a ∈ as, Reads write read a) →
      (as.flatMap write).length ≤ rounds → readAll read rounds (as.flatMap write) = (as, [])
  | [], 0, _, _ => rfl
  | [], rounds + 1, _, _ => by
    rw [flatMap_nil, readAll, hnil]
  | a :: as, rounds, h, hlen => by
    obtain ⟨hne, hread⟩ := h a mem_cons_self
    have hpos : 0 < (write a).length := length_pos_iff.mpr hne
    rw [flatMap_cons, length_append] at hlen
    -- every message takes at least a byte, so the rounds do not run out
    obtain ⟨r, rfl⟩ : ∃ r, rounds = r + 1 := ⟨rounds - 1, by omega⟩
    have ih : readAll read r (as.flatMap write) = (as, []) :=
      readAll_flatMap hnil (fun a' ha' => h a' (mem_cons_of_mem _ ha')) (by omega)
    rw [flatMap_cons, readAll, hread]
    dsimp only
    rw [ih]

end Lib.Wire
