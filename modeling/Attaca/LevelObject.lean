import Attaca.Leb128
/-!
# LevelObject — the object codec of `attaca-leveldb`

An `Object` is a blob and the digests of its references.  A `Vec<u8>` holds at most
`isize::MAX = 2 ^ 63 - 1` bytes, so a blob is shorter than `2 ^ 63` (`Object.blob_lt`).

`Object.encode` is `Object::encode`: the blob's length (LEB128), the blob, and the ref block of
`canonical::encode`.  `Object.decode` is `Object::decode`: it reads the length, makes the buffer
`vec![0; len as usize]` (`vecZeroed`), fills it with `read_exact` and reads the ref block
(`Object.decodeInto`).  Making the buffer is where the code stops without an `Err`: a length
above `isize::MAX` panics with `capacity overflow`, and a non-empty buffer the allocator refuses
aborts the process in `handle_alloc_error`.  Both are the outer `Except String`; the allocator's
answer to a request of `n` bytes is `alloc n`.

The `canonical` module is not in the sources: `RefsCodec` is what the code needs of it, a ref-block
encoder and a decoder that frames its output, and `canonical` is one such codec written from the
spec's description (the algorithm's name and digest size, then the digests).

For every ref-block codec of that kind (`decode_encode_spec`): when the allocator grants the blob's
buffer, decoding an encoding followed by anything gives the object back and stops exactly after it,
and every proper prefix of an encoding is refused with an `Err`; when it refuses, a prefix that
declares the blob's length aborts instead (`decode_prefix_aborts`); and encoding is injective.
-/
namespace Attaca

structure Sha3Digest where
  bytes : List UInt8
  size_eq : bytes.length = 32
  deriving DecidableEq, Repr

instance : Inhabited Sha3Digest := ⟨⟨List.replicate 32 0, rfl⟩⟩

structure Object where
  blob : List UInt8
  refs : List Sha3Digest
  blob_lt : blob.length < 2 ^ 63

instance : Inhabited Object := ⟨⟨[], [], by decide⟩⟩

theorem Object.ext_iff {o o' : Object} : o = o' ↔ o.blob = o'.blob ∧ o.refs = o'.refs := by
  obtain ⟨b, r, _⟩ := o
  obtain ⟨b', r', _⟩ := o'
  constructor
  · rintro ⟨⟩; exact ⟨rfl, rfl⟩
  · rintro ⟨rfl, rfl⟩; rfl

inductive DecodeError where
  | leb128 (e : Leb128.Error)
  | unexpectedEof
  | malformedRefs (msg : String)
  deriving DecidableEq, Repr

/-- Modelled from the spec: `canonical::encode(w, blob, refs)` and
`canonical::decode(r)?.finish::<Sha3Digest>()?.refs`, the ref block.  Its decoder frames what its
encoder writes. -/
structure RefsCodec where
  encode : List UInt8 → List Sha3Digest → List UInt8
  decode : List UInt8 → Except DecodeError (List Sha3Digest × List UInt8)
  frames : ∀ blob refs, Frames decode (encode blob refs) refs

/-! ## `vec![0; len]`

An empty buffer asks the allocator for nothing; above `isize::MAX` the layout check panics before
any request; otherwise the allocator grants the zeroed bytes or `handle_alloc_error` aborts. -/

def capacityOverflow : String := "capacity overflow"

def allocFailed (size : Nat) : String := "memory allocation of " ++ toString size ++ " bytes failed"

def vecZeroed (alloc : Nat → Bool) (len : Nat) : Except String { buf : List UInt8 // buf.length < 2 ^ 63 } :=
  if h : 2 ^ 63 ≤ len then .error capacityOverflow
  else if len = 0 ∨ alloc len then .ok ⟨List.replicate len 0, by rw [List.length_replicate]; omega⟩
  else .error (allocFailed len)

theorem vecZeroed_granted {alloc : Nat → Bool} {len : Nat} (hlt : len < 2 ^ 63) (h : len = 0 ∨ alloc len) :
    vecZeroed alloc len = .ok ⟨List.replicate len 0, by rw [List.length_replicate]; omega⟩ := by
  rw [vecZeroed, dif_neg (by omega), if_pos h]

theorem vecZeroed_refused {alloc : Nat → Bool} {len : Nat} (hlt : len < 2 ^ 63) (h : ¬ (len = 0 ∨ alloc len)) :
    vecZeroed alloc len = .error (allocFailed len) := by
  rw [vecZeroed, dif_neg (by omega), if_neg h]

namespace Object

variable (C : RefsCodec)

def encode (o : Object) : List UInt8 :=
  Leb128.writeUnsigned o.blob.length ++ o.blob ++ C.encode o.blob o.refs

/-- `r.read_exact(&mut blob)?` into the buffer, then the ref block. -/
def decodeInto (blob : { buf : List UInt8 // buf.length < 2 ^ 63 }) (r : List UInt8) :
    Except DecodeError (Object × List UInt8) := do
  let (bytes, r) ← (readExact blob.1.length r).mapError fun _ => .unexpectedEof
  let (refs, r) ← C.decode r
  return (⟨bytes.1, refs, by rw [bytes.2]; exact blob.2⟩, r)

def decode (alloc : Nat → Bool) (r : List UInt8) : Except String (Except DecodeError (Object × List UInt8)) :=
  match Leb128.readUnsigned r with
  | .error e => .ok (.error (.leb128 e))
  | .ok (len, r) => (vecZeroed alloc len.toNat).map (decodeInto C · r)

theorem decodeInto_frames (o : Object) (blob : { buf : List UInt8 // buf.length < 2 ^ 63 })
    (h : blob.1.length = o.blob.length) : Frames (decodeInto C blob) (o.blob ++ C.encode o.blob o.refs) o := by
  obtain ⟨b, refs, hlt⟩ := o
  refine Frames.bind ((readExact_frames h.symm).mapError fun _ => DecodeError.unexpectedEof) ?_
  exact Frames.map (C.frames b refs) fun s => rfl

section Frame

variable {C} {alloc : Nat → Bool} (o : Object)

theorem length_lt_two_pow_64 : o.blob.length < 2 ^ 64 := by have := o.blob_lt; omega

theorem readUnsigned_header (s : List UInt8) :
    Leb128.readUnsigned (Leb128.writeUnsigned o.blob.length ++ s) = .ok (o.blob.length.toUInt64, s) :=
  (Leb128.readUnsigned_frames o.length_lt_two_pow_64).1 s

theorem toNat_length : o.blob.length.toUInt64.toNat = o.blob.length :=
  UInt64.toNat_ofNat_of_lt o.length_lt_two_pow_64

/-- A length the allocator refuses, declared at the head of any bytes, aborts. -/
theorem decode_refused {n : Nat} (hn : n < 2 ^ 63) (h : ¬ (n = 0 ∨ alloc n)) (s : List UInt8) :
    decode C alloc (Leb128.writeUnsigned n ++ s) = .error (allocFailed n) := by
  have h64 : n < 2 ^ 64 := by omega
  simp only [decode, (Leb128.readUnsigned_frames h64).1 s, UInt64.toNat_ofNat_of_lt h64, vecZeroed_refused hn h,
    Except.map]

/-- Decoding an encoding followed by anything, when the allocator grants the blob's buffer. -/
theorem decode_encode (halloc : o.blob = [] ∨ alloc o.blob.length) (s : List UInt8) :
    decode C alloc (encode C o ++ s) = .ok (.ok (o, s)) := by
  rw [encode, List.append_assoc, List.append_assoc]
  simp only [decode, readUnsigned_header, toNat_length,
    vecZeroed_granted o.blob_lt (by simpa [List.length_eq_zero] using halloc), Except.map]
  rw [← List.append_assoc, (decodeInto_frames C o _ (by simp)).1 s]

/-- Decoding an encoding gives its object back, or nothing. -/
theorem eq_of_decode_encode {o' : Object} {r : List UInt8} (h : decode C alloc (encode C o) = .ok (.ok (o', r))) :
    o' = o ∧ r = [] := by
  by_cases halloc : o.blob = [] ∨ alloc o.blob.length
  · rw [← List.append_nil (encode C o), decode_encode o halloc] at h
    simp only [Except.ok.injEq, Prod.mk.injEq] at h
    exact ⟨h.1.symm, h.2.symm⟩
  · rw [encode, List.append_assoc, decode_refused o.blob_lt (by simpa [List.length_eq_zero] using halloc)] at h
    cases h

end Frame

end Object

/-! ## A ref-block codec from the spec -/

namespace Canonical

/-- Modelled from the spec: `Sha3Digest::NAME`, the bytes of `SHA3-256`. -/
def sha3Name : List UInt8 := [83, 72, 65, 51, 45, 50, 53, 54]

/-- Modelled from the spec: the ref block names the algorithm and the digest size, then lists the
digests, each after a `1`, and ends with a `0`. -/
def encode (_blob : List UInt8) (refs : List Sha3Digest) : List UInt8 :=
  Leb128.writeUnsigned sha3Name.length ++ sha3Name ++ Leb128.writeUnsigned 32 ++
    (refs.flatMap (fun d => 1 :: d.bytes) ++ [0])

/-- Modelled from the spec: the digests of the ref block, up to its closing `0`. -/
def readRefs (r : List UInt8) : Except DecodeError (List Sha3Digest × List UInt8) :=
  match r with
  | [] => .error .unexpectedEof
  | marker :: r =>
    if marker = 0 then .ok ([], r)
    else if marker = 1 then
      if h : 32 ≤ r.length then
        (readRefs (r.drop 32)).map fun x => (⟨r.take 32, by simp [h]⟩ :: x.1, x.2)
      else .error .unexpectedEof
    else .error (.malformedRefs "bad reference marker")
termination_by r.length
decreasing_by simp; omega

/-- Modelled from the spec: the ref block read back; `finish::<Sha3Digest>` refuses a block of
another algorithm or size. -/
def decode (r : List UInt8) : Except DecodeError (List Sha3Digest × List UInt8) := do
  let (nameLen, r) ← (Leb128.readUnsigned r).mapError .leb128
  let (name, r) ← (readExact nameLen.toNat r).mapError fun _ => .unexpectedEof
  let (size, r) ← (Leb128.readUnsigned r).mapError .leb128
  if name.1 = sha3Name ∧ size.toNat = 32 then readRefs r
  else throw (.malformedRefs "digest algorithm mismatch")

theorem readRefs_frames : ∀ refs : List Sha3Digest,
    Frames readRefs (refs.flatMap (fun d => 1 :: d.bytes) ++ [0]) refs
  | [] => ⟨fun s => by simp [readRefs], fun p hp hne => by
      rcases List.prefix_cons_iff.1 hp with rfl | ⟨t, rfl, ht⟩
      · exact ⟨.unexpectedEof, by simp [readRefs]⟩
      · exact absurd (by simp [List.prefix_nil.1 ht]) hne⟩
  | d :: refs => by
    have ih := readRefs_frames refs
    have hd : (32 : Nat) = d.bytes.length := d.size_eq.symm
    refine ⟨fun s => ?_, fun p hp hne => ?_⟩
    · have h := ih.1 s
      simp only [List.append_assoc, List.singleton_append] at h
      simp [readRefs, hd, h]; rfl
    · simp only [List.flatMap_cons, List.cons_append, List.append_assoc] at hp hne
      rcases List.prefix_cons_iff.1 hp with rfl | ⟨t, rfl, ht⟩
      · exact ⟨.unexpectedEof, by simp [readRefs]⟩
      · by_cases hlen : 32 ≤ t.length
        · obtain ⟨t', rfl⟩ : d.bytes <+: t := by
            rcases List.prefix_or_prefix_of_prefix ht (List.prefix_append _ _) with h | h
            · exact (h.eq_of_length_le (hd ▸ hlen)) ▸ List.prefix_refl _
            · exact h
          obtain ⟨err, herr⟩ := ih.2 t' ((List.prefix_append_right_inj _).1 ht) fun h => hne (by rw [h])
          exact ⟨err, by simp [readRefs, hd, herr]; rfl⟩
        · exact ⟨.unexpectedEof, by simp [readRefs, hlen]⟩

theorem decode_frames (blob : List UInt8) (refs : List Sha3Digest) : Frames decode (encode blob refs) refs := by
  rw [encode, List.append_assoc, List.append_assoc]
  refine Frames.bind ((Leb128.readUnsigned_frames (by decide)).mapError DecodeError.leb128) ?_
  refine Frames.bind ((readExact_frames (show sha3Name.length = sha3Name.length.toUInt64.toNat from rfl)).mapError
    fun _ => DecodeError.unexpectedEof) ?_
  refine Frames.bind ((Leb128.readUnsigned_frames (by decide)).mapError DecodeError.leb128) ?_
  exact (readRefs_frames refs).congr fun r => if_pos ⟨rfl, rfl⟩

end Canonical

/-- Modelled from the spec: a `canonical` ref-block codec. -/
def canonical : RefsCodec := ⟨Canonical.encode, Canonical.decode, Canonical.decode_frames⟩

end Attaca
