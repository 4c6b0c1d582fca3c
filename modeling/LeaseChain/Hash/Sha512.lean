import LeaseChain.Bytes

/-!
# SHA-512

The hash function of FIPS 180-4 with sixty-four-bit words, in the same shape as SHA-256: padding to
blocks of a hundred and twenty-eight bytes, then a fold of the compression function. The digest
always has sixty-four bytes (`length_digest`).
-/

namespace LeaseChain.Sha512

/-- The eight chaining words. -/
structure State where
  a : UInt64
  b : UInt64
  c : UInt64
  d : UInt64
  e : UInt64
  f : UInt64
  g : UInt64
  h : UInt64

/-- The chaining words before the first block: square roots of the first eight primes. -/
def initial : State where
  a := 0x6a09e667f3bcc908
  b := 0xbb67ae8584caa73b
  c := 0x3c6ef372fe94f82b
  d := 0xa54ff53a5f1d36f1
  e := 0x510e527fade682d1
  f := 0x9b05688c2b3e6c1f
  g := 0x1f83d9abfb41bd6b
  h := 0x5be0cd19137e2179

/-- One constant per round: cube roots of the first eighty primes. -/
def roundConstants : List UInt64 := [
  0x428a2f98d728ae22, 0x7137449123ef65cd, 0xb5c0fbcfec4d3b2f, 0xe9b5dba58189dbbc,
  0x3956c25bf348b538, 0x59f111f1b605d019, 0x923f82a4af194f9b, 0xab1c5ed5da6d8118,
  0xd807aa98a3030242, 0x12835b0145706fbe, 0x243185be4ee4b28c, 0x550c7dc3d5ffb4e2,
  0x72be5d74f27b896f, 0x80deb1fe3b1696b1, 0x9bdc06a725c71235, 0xc19bf174cf692694,
  0xe49b69c19ef14ad2, 0xefbe4786384f25e3, 0x0fc19dc68b8cd5b5, 0x240ca1cc77ac9c65,
  0x2de92c6f592b0275, 0x4a7484aa6ea6e483, 0x5cb0a9dcbd41fbd4, 0x76f988da831153b5,
  0x983e5152ee66dfab, 0xa831c66d2db43210, 0xb00327c898fb213f, 0xbf597fc7beef0ee4,
  0xc6e00bf33da88fc2, 0xd5a79147930aa725, 0x06ca6351e003826f, 0x142929670a0e6e70,
  0x27b70a8546d22ffc, 0x2e1b21385c26c926, 0x4d2c6dfc5ac42aed, 0x53380d139d95b3df,
  0x650a73548baf63de, 0x766a0abb3c77b2a8, 0x81c2c92e47edaee6, 0x92722c851482353b,
  0xa2bfe8a14cf10364, 0xa81a664bbc423001, 0xc24b8b70d0f89791, 0xc76c51a30654be30,
  0xd192e819d6ef5218, 0xd69906245565a910, 0xf40e35855771202a, 0x106aa07032bbd1b8,
  0x19a4c116b8d2d0c8, 0x1e376c085141ab53, 0x2748774cdf8eeb99, 0x34b0bcb5e19b48a8,
  0x391c0cb3c5c95a63, 0x4ed8aa4ae3418acb, 0x5b9cca4f7763e373, 0x682e6ff3d6b2b8a3,
  0x748f82ee5defb2fc, 0x78a5636f43172f60, 0x84c87814a1f0ab72, 0x8cc702081a6439ec,
  0x90befffa23631e28, 0xa4506cebde82bde9, 0xbef9a3f7b2c67915, 0xc67178f2e372532b,
  0xca273eceea26619c, 0xd186b8c721c0c207, 0xeada7dd6cde0eb1e, 0xf57d4f7fee6ed178,
  0x06f067aa72176fba, 0x0a637dc5a2c898a6, 0x113f9804bef90dae, 0x1b710b35131c471b,
  0x28db77f523047d84, 0x32caab7b40c72493, 0x3c9ebe0a15c9bebc, 0x431d67c49c100d4c,
  0x4cc5d4becb3e42b6, 0x597f299cfc657e2a, 0x5fcb6fab3ad6faec, 0x6c44198c4a475817]

/-- Rotation to the right; `n` lies strictly between 0 and 64. -/
@[inline] def rotate (x n : UInt64) : UInt64 := (x >>> n) ||| (x <<< (64 - n))

/-- The word that eight big-endian bytes denote. -/
def word (bs : Bytes) : UInt64 := bs.foldl (fun w b => (w <<< 8) ||| b.toUInt64) 0

/-- Reads the given number of big-endian words of eight bytes. -/
def words : Nat → Bytes → List UInt64
  | 0, _ => []
  | n + 1, bs => word (bs.take 8) :: words n (bs.drop 8)

/-- The big-endian bytes of a word. -/
def wordBytes (w : UInt64) : Bytes :=
  [(w >>> 56).toUInt8, (w >>> 48).toUInt8, (w >>> 40).toUInt8, (w >>> 32).toUInt8,
    (w >>> 24).toUInt8, (w >>> 16).toUInt8, (w >>> 8).toUInt8, w.toUInt8]

/-- The next word of the message schedule, from the words before it. -/
@[inline] def nextWord (w : Array UInt64) (i : Nat) : UInt64 :=
  let early := w.getD (i + 1) 0
  let late := w.getD (i + 14) 0
  let small := rotate early 1 ^^^ rotate early 8 ^^^ (early >>> 7)
  let large := rotate late 19 ^^^ rotate late 61 ^^^ (late >>> 6)
  large + w.getD (i + 9) 0 + small + w.getD i 0

/-- The eighty words of the message schedule of a block. -/
def schedule (block : Bytes) : Array UInt64 :=
  Nat.fold 64 (fun i _ w => w.push (nextWord w i)) (words 16 block).toArray

/-- One round of the compression function. -/
@[inline] def State.round (s : State) (k w : UInt64) : State :=
  let choice := (s.e &&& s.f) ^^^ (~~~ s.e &&& s.g)
  let majority := (s.a &&& s.b) ^^^ (s.a &&& s.c) ^^^ (s.b &&& s.c)
  let t1 := s.h + (rotate s.e 14 ^^^ rotate s.e 18 ^^^ rotate s.e 41) + choice + k + w
  let t2 := (rotate s.a 28 ^^^ rotate s.a 34 ^^^ rotate s.a 39) + majority
  { a := t1 + t2, b := s.a, c := s.b, d := s.c, e := s.d + t1, f := s.e, g := s.f, h := s.g }

/-- The rounds for the given constants, starting at schedule word `i`. -/
def State.rounds (w : Array UInt64) : List UInt64 → Nat → State → State
  | [], _, s => s
  | k :: ks, i, s => rounds w ks (i + 1) (s.round k (w.getD i 0))

/-- Absorbs one block of a hundred and twenty-eight bytes. -/
def State.compress (s : State) (block : Bytes) : State :=
  let t := s.rounds (schedule block) roundConstants 0
  { a := s.a + t.a, b := s.b + t.b, c := s.c + t.c, d := s.d + t.d
    e := s.e + t.e, f := s.f + t.f, g := s.g + t.g, h := s.h + t.h }

/-- Absorbs the given number of blocks from the front of a message. -/
def State.absorb : Nat → State → Bytes → State
  | 0, s, _ => s
  | n + 1, s, message => absorb n (s.compress (message.take 128)) (message.drop 128)

/-- The message followed by a one bit, zero bits and its bit length, in whole blocks. -/
def pad (message : Bytes) : Bytes :=
  let zeros := (239 - message.length % 128) % 128
  message ++ (0x80 :: (List.replicate zeros 0 ++ Bytes.ofNatBE 16 (8 * message.length)))

/-- The bytes of the chaining words. -/
def State.bytes (s : State) : Bytes :=
  wordBytes s.a ++ wordBytes s.b ++ wordBytes s.c ++ wordBytes s.d ++
    wordBytes s.e ++ wordBytes s.f ++ wordBytes s.g ++ wordBytes s.h

/-- The SHA-512 digest of a message. -/
def digest (message : Bytes) : Bytes :=
  let padded := pad message
  (initial.absorb (padded.length / 128) padded).bytes

@[simp] theorem length_digest (message : Bytes) : (digest message).length = 64 := rfl

end LeaseChain.Sha512
