import Mathlib
/-!
# Leb128 — reading a byte slice, and the `leb128` crate's unsigned numbers

`Object::decode` reads from a byte slice (`&mut &[u8]`): a reader is what is left of the slice, and
a read returns its value with what is left after it.  `Frames dec e v` says that `dec` reads `v`
from the bytes `e` and from nothing shorter: on `e` followed by anything it stops exactly after
`e`, and on every proper prefix of `e` it fails.  Framing composes (`Frames.bind`), so the object
codec is framed once its three parts are.

`write::unsigned` and `read::unsigned` are the `leb128` crate's, bit for bit: seven bits a byte,
lowest first, the continuation bit on every byte but the last, and on reading, a tenth byte
(shift 63) other than `0` or `1` is `Overflow`.  A `u64` is a `Nat` below `2 ^ 64`; no shift in the
reader leaves the `u64` (`readLoop_write`), so `Nat` arithmetic is the code's.  The crate's
`CONTINUATION_BIT`, `low_bits_of_byte`, `low_bits_of_u64`, `read::Error` and `read::unsigned` are
`continuationBit`, `lowBitsOfByte`, `lowBitsOfU64`, `Error` and `readUnsigned`.
-/
namespace Attaca

/-! ## Readers -/

/-- **`dec` frames `v` as `e`**: it reads `v` from `e` followed by anything and leaves the reader
right after `e`, and it fails on every proper prefix of `e`. -/
def Frames {ε α : Type} (dec : List UInt8 → Except ε (α × List UInt8)) (e : List UInt8) (v : α) : Prop :=
  (∀ s, dec (e ++ s) = .ok (v, s)) ∧ ∀ p, p <+: e → p ≠ e → ∃ err, dec p = .error err

namespace Frames

variable {ε ε' α β : Type} {dec : List UInt8 → Except ε (α × List UInt8)} {e₁ e₂ : List UInt8} {v₁ : α}

/-- A proper prefix of two pieces, the first framed, stops inside the first or reads it and stops
inside the second. -/
theorem prefix_cases (h₁ : Frames dec e₁ v₁) {p : List UInt8} (hp : p <+: e₁ ++ e₂) (hne : p ≠ e₁ ++ e₂) :
    (∃ err, dec p = .error err) ∨ ∃ p', p' <+: e₂ ∧ p' ≠ e₂ ∧ dec p = .ok (v₁, p') := by
  by_cases hp₁ : e₁ <+: p
  · obtain ⟨p', rfl⟩ := hp₁
    exact .inr ⟨p', (List.prefix_append_right_inj e₁).1 hp, fun h => hne (h ▸ rfl), by simpa using h₁.1 p'⟩
  · have hp₁' := (List.prefix_or_prefix_of_prefix hp (List.prefix_append e₁ e₂)).resolve_right hp₁
    exact .inl (h₁.2 p hp₁' fun h => hp₁ (h ▸ List.prefix_refl p))

/-- **Framing composes**: read one framed value, then go on from it and what is left. -/
theorem bind {k : α × List UInt8 → Except ε (β × List UInt8)} {v₂ : β} (h₁ : Frames dec e₁ v₁)
    (h₂ : Frames (fun r => k (v₁, r)) e₂ v₂) : Frames (fun r => dec r >>= k) (e₁ ++ e₂) v₂ := by
  refine ⟨fun s => by simp only [List.append_assoc, h₁.1]; exact h₂.1 s, fun p hp hne => ?_⟩
  rcases h₁.prefix_cases hp hne with ⟨err, herr⟩ | ⟨p', hp', hne', hdec⟩
  · exact ⟨err, by simp [herr]; rfl⟩
  · obtain ⟨err, herr⟩ := h₂.2 p' hp' hne'
    exact ⟨err, by simp only [hdec]; exact herr⟩

theorem map {k : α × List UInt8 → Except ε (β × List UInt8)} {v₂ : β} (h : Frames dec e₁ v₁)
    (hk : ∀ s, k (v₁, s) = .ok (v₂, s)) : Frames (fun r => dec r >>= k) e₁ v₂ := by
  have : Frames (fun r => dec r >>= k) (e₁ ++ []) v₂ :=
    bind h ⟨hk, fun p hp hne => absurd (List.prefix_nil.1 hp) hne⟩
  rwa [List.append_nil] at this

theorem mapError (f : ε → ε') (h : Frames dec e₁ v₁) : Frames (fun r => (dec r).mapError f) e₁ v₁ := by
  refine ⟨fun s => by simp [h.1 s]; rfl, fun p hp hne => ?_⟩
  obtain ⟨err, herr⟩ := h.2 p hp hne
  exact ⟨f err, by simp [herr]; rfl⟩

theorem congr {dec' : List UInt8 → Except ε (α × List UInt8)} (h : Frames dec e₁ v₁) (hd : ∀ r, dec' r = dec r) :
    Frames dec' e₁ v₁ :=
  funext hd ▸ h

end Frames

/-- `Read::read_exact` on a byte slice: exactly `n` bytes, or `UnexpectedEof`. -/
def readExact (n : Nat) (r : List UInt8) : Except Unit ({ buf : List UInt8 // buf.length = n } × List UInt8) :=
  if h : n ≤ r.length then .ok (⟨r.take n, by simp [h]⟩, r.drop n) else .error ()

theorem readExact_frames {buf : List UInt8} {n : Nat} (h : buf.length = n) : Frames (readExact n) buf ⟨buf, h⟩ := by
  subst h
  refine ⟨fun s => by simp [readExact], fun p hp hne => ⟨(), ?_⟩⟩
  have : p.length < buf.length := lt_of_le_of_ne hp.length_le fun h => hne (hp.eq_of_length h)
  simp [readExact, Nat.not_le.2 this]

namespace Leb128

/-! ## The bits -/

def continuationBit : UInt8 := (1 : UInt8) <<< (7 : UInt8)

def lowBitsOfByte (byte : UInt8) : UInt8 := byte &&& ~~~continuationBit

def lowBitsOfU64 (val : Nat) : UInt8 := lowBitsOfByte (val &&& 255).toUInt8

set_option maxRecDepth 4000 in
private theorem and_128_eq_zero : ∀ n < 256, n &&& 128 = 0 ↔ n < 128 := by decide

theorem continued_iff (byte : UInt8) : byte &&& continuationBit = 0 ↔ byte.toNat < 128 := by
  rw [← and_128_eq_zero byte.toNat byte.toBitVec.isLt, show (128 : Nat) = continuationBit.toNat from rfl,
    ← UInt8.and_toNat]
  exact ⟨fun h => by rw [h]; rfl, fun h => UInt8.toNat.inj h⟩

@[simp] theorem lowBitsOfByte_toNat (byte : UInt8) : (lowBitsOfByte byte).toNat = byte.toNat % 128 := by
  rw [lowBitsOfByte, UInt8.and_toNat, show (~~~continuationBit).toNat = 2 ^ 7 - 1 from rfl,
    Nat.and_pow_two_sub_one_eq_mod]

theorem toNat_ofNat {n : Nat} (h : n < 256) : (UInt8.ofNat n).toNat = n := UInt8.toNat_ofNat_of_lt h

theorem lowBitsOfU64_eq (val : Nat) : lowBitsOfU64 val = UInt8.ofNat (val % 128) := by
  apply UInt8.toNat.inj
  rw [lowBitsOfU64, lowBitsOfByte_toNat, show (255 : Nat) = 2 ^ 8 - 1 from rfl, Nat.and_pow_two_sub_one_eq_mod,
    Nat.toUInt8, toNat_ofNat (Nat.mod_lt _ (by decide)), toNat_ofNat (by omega)]
  omega

theorem or_continuationBit {n : Nat} (h : n < 128) :
    UInt8.ofNat n ||| continuationBit = UInt8.ofNat (n + 128) := by
  apply UInt8.toNat.inj
  show (UInt8.ofNat n).toNat ||| 128 = _
  rw [toNat_ofNat (by omega), toNat_ofNat (by omega), Nat.or_comm,
    show n + 128 = 2 ^ 7 * 1 + n by omega, Nat.mul_add_lt_is_or (by omega)]

/-! ## Writing -/

/-- `write::unsigned`: the low seven bits, then the rest shifted down, with the continuation bit
set when anything is left. -/
def writeUnsigned (val : Nat) : List UInt8 :=
  let byte := lowBitsOfU64 val
  if val >>> 7 = 0 then [byte] else (byte ||| continuationBit) :: writeUnsigned (val >>> 7)
termination_by val
decreasing_by rw [Nat.shiftRight_eq_div_pow] at *; omega

theorem writeUnsigned_eq (val : Nat) : writeUnsigned val =
    if val < 128 then [UInt8.ofNat val] else UInt8.ofNat (val % 128 + 128) :: writeUnsigned (val / 128) := by
  rw [writeUnsigned, lowBitsOfU64_eq, Nat.shiftRight_eq_div_pow]
  by_cases h : val < 128
  · simp [h, Nat.div_eq_of_lt h, Nat.mod_eq_of_lt h]
  · rw [if_neg (show val / 2 ^ 7 ≠ 0 by omega), if_neg h, or_continuationBit (Nat.mod_lt val (by decide))]

/-- Every byte before the last has the continuation bit. -/
theorem proper_prefix_continued : ∀ (val : Nat) {p : List UInt8}, p <+: writeUnsigned val → p ≠ writeUnsigned val →
    ∀ b ∈ p, b &&& continuationBit ≠ 0
  | val, p, hp, hne => by
    rw [writeUnsigned_eq] at hp hne
    by_cases h : val < 128
    · rw [if_pos h] at hp hne
      rcases List.prefix_cons_iff.1 hp with rfl | ⟨t, rfl, ht⟩
      · simp
      · exact absurd (by rw [List.prefix_nil.1 ht]) hne
    · rw [if_neg h] at hp hne
      rcases List.prefix_cons_iff.1 hp with rfl | ⟨t, rfl, ht⟩
      · simp
      · have hrec := proper_prefix_continued (val / 128) ht fun h => hne (by rw [h])
        intro b hb
        rcases List.mem_cons.1 hb with rfl | hb
        · rw [Ne, continued_iff, toNat_ofNat (by omega)]; omega
        · exact hrec b hb
termination_by val => val
decreasing_by omega

/-! ## Reading -/

inductive Error where
  /-- `read_exact` ran out of bytes. -/
  | unexpectedEof
  | overflow
  deriving DecidableEq, Repr

/-- The loop that skips the rest of an overflowing number before `Overflow` is returned. -/
def skipContinued : UInt8 → List UInt8 → Except Error (Nat × List UInt8)
  | byte, [] => if byte &&& continuationBit = 0 then .error .overflow else .error .unexpectedEof
  | byte, next :: r => if byte &&& continuationBit = 0 then .error .overflow else skipContinued next r

/-- The loop of `read::unsigned`, from the value read so far and its width. -/
def readLoop (result shift : Nat) : List UInt8 → Except Error (Nat × List UInt8)
  | [] => .error .unexpectedEof
  | byte :: r =>
    if shift = 63 ∧ byte ≠ 0 ∧ byte ≠ 1 then skipContinued byte r
    else
      let result := result ||| (lowBitsOfByte byte).toNat <<< shift
      if byte &&& continuationBit = 0 then .ok (result, r) else readLoop result (shift + 7) r

def readUnsigned (r : List UInt8) : Except Error (UInt64 × List UInt8) :=
  (readLoop 0 0 r).map fun x => (x.1.toUInt64, x.2)

theorem lor_shiftLeft {result low shift : Nat} (h : result < 2 ^ shift) :
    result ||| low <<< shift = result + low * 2 ^ shift := by
  rw [Nat.shiftLeft_eq, Nat.or_comm, Nat.mul_comm, ← Nat.mul_add_lt_is_or h, Nat.add_comm]

/-- **The reader reads what the writer wrote**, from any value read so far below its width, as long
as the whole stays a `u64`: the overflow check never fires. -/
theorem readLoop_write (s : List UInt8) : ∀ (val result shift : Nat), result < 2 ^ shift →
    result + val * 2 ^ shift < 2 ^ 64 → readLoop result shift (writeUnsigned val ++ s) = .ok (result + val * 2 ^ shift, s)
  | val, result, shift, hr, hv => by
    have hpow : 2 ^ 64 ≤ 2 * 2 ^ 63 := by norm_num
    have h63 : shift = 63 → val < 2 := fun h => by
      subst h
      by_contra hc
      have : 2 * 2 ^ 63 ≤ val * 2 ^ 63 := Nat.mul_le_mul_right _ (by omega)
      omega
    rw [writeUnsigned_eq]
    by_cases hval : val < 128
    · have hcheck : ¬ (shift = 63 ∧ UInt8.ofNat val ≠ 0 ∧ UInt8.ofNat val ≠ 1) := by
        rintro ⟨h, h0, h1⟩
        obtain rfl | rfl : val = 0 ∨ val = 1 := by have := h63 h; omega
        · exact h0 rfl
        · exact h1 rfl
      have hlow : (lowBitsOfByte (UInt8.ofNat val)).toNat = val := by
        rw [lowBitsOfByte_toNat, toNat_ofNat (by omega), Nat.mod_eq_of_lt hval]
      have hstop : UInt8.ofNat val &&& continuationBit = 0 := by
        rw [continued_iff, toNat_ofNat (by omega)]; exact hval
      simp only [if_pos hval, List.singleton_append, readLoop, if_neg hcheck, hlow, lor_shiftLeft hr, hstop, if_true]
    · have hcheck : ¬ (shift = 63 ∧ UInt8.ofNat (val % 128 + 128) ≠ 0 ∧ UInt8.ofNat (val % 128 + 128) ≠ 1) :=
        fun h => by have := h63 h.1; omega
      have hlow : (lowBitsOfByte (UInt8.ofNat (val % 128 + 128))).toNat = val % 128 := by
        rw [lowBitsOfByte_toNat, toNat_ofNat (by omega)]; omega
      have hgo : ¬ UInt8.ofNat (val % 128 + 128) &&& continuationBit = 0 := by
        rw [continued_iff, toNat_ofNat (by omega)]; omega
      have hsplit : val % 128 * 2 ^ shift + val / 128 * 2 ^ (shift + 7) = val * 2 ^ shift := by
        conv_rhs => rw [← Nat.mod_add_div val 128]
        ring
      have hr' : result + val % 128 * 2 ^ shift < 2 ^ (shift + 7) := by
        have : (val % 128 + 1) * 2 ^ shift ≤ 128 * 2 ^ shift := Nat.mul_le_mul_right _ (by omega)
        rw [pow_add, show (2 : Nat) ^ 7 = 128 from rfl]
        linarith
      simp only [if_neg hval, List.cons_append, readLoop, if_neg hcheck, hlow, lor_shiftLeft hr, hgo, if_false]
      rw [readLoop_write s (val / 128) _ (shift + 7) hr' (by omega), Nat.add_assoc, hsplit]
termination_by val => val
decreasing_by omega

theorem skipContinued_continued : ∀ (byte : UInt8) (p : List UInt8), (∀ b ∈ p, b &&& continuationBit ≠ 0) →
    byte &&& continuationBit ≠ 0 → ∃ err, skipContinued byte p = .error err
  | byte, [], _, hb => ⟨.unexpectedEof, by simp [skipContinued, hb]⟩
  | byte, next :: p, hp, hb => by
    rw [skipContinued, if_neg hb]
    exact skipContinued_continued next p (fun b h => hp b (List.mem_cons_of_mem _ h)) (hp next (List.mem_cons_self _ _))

/-- Bytes that all continue a number end inside it: the reader fails on them. -/
theorem readLoop_continued : ∀ (p : List UInt8) (result shift : Nat), (∀ b ∈ p, b &&& continuationBit ≠ 0) →
    ∃ err, readLoop result shift p = .error err
  | [], _, _, _ => ⟨.unexpectedEof, rfl⟩
  | byte :: p, result, shift, hp => by
    have hb := hp byte (List.mem_cons_self _ _)
    have hp' : ∀ b ∈ p, b &&& continuationBit ≠ 0 := fun b h => hp b (List.mem_cons_of_mem _ h)
    rw [readLoop]
    split
    · exact skipContinued_continued byte p hp' hb
    · simp only [if_neg hb]
      exact readLoop_continued p _ _ hp'

/-- **`read::unsigned` frames `write::unsigned`** on every `u64`. -/
theorem readUnsigned_frames {val : Nat} (h : val < 2 ^ 64) : Frames readUnsigned (writeUnsigned val) val.toUInt64 := by
  refine ⟨fun s => ?_, fun p hp hne => ?_⟩
  · have := readLoop_write s val 0 0 (by decide) (by simpa using h)
    simp only [Nat.zero_add, pow_zero, Nat.mul_one] at this
    show (readLoop 0 0 _).map _ = _
    rw [this]; rfl
  · obtain ⟨err, herr⟩ := readLoop_continued p 0 0 (proper_prefix_continued val hp hne)
    exact ⟨err, by simp [readUnsigned, herr]; rfl⟩

end Leb128

end Attaca
