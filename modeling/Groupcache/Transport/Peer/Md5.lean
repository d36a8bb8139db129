import Groupcache.Transport.ByteView

/-! `crypto/md5` and the verb `%x`, as the picker applies them to the input of a ring point. -/
namespace Groupcache.Md5

/-- Words are naturals below `2 ^ 32`. -/
abbrev Word := ℕ

def Word.add (x y : Word) : Word := (x + y) % 4294967296

def Word.not (x : Word) : Word := x ^^^ 4294967295

def Word.rotateLeft (x : Word) (n : ℕ) : Word :=
  ((x <<< n) ||| (x >>> (32 - n))) % 4294967296

/-- The integer part of `2 ^ 32 * |sin (i + 1)|`. -/
def sines : List Word := [
    0xd76aa478, 0xe8c7b756, 0x242070db, 0xc1bdceee, 0xf57c0faf, 0x4787c62a,
    0xa8304613, 0xfd469501, 0x698098d8, 0x8b44f7af, 0xffff5bb1, 0x895cd7be,
    0x6b901122, 0xfd987193, 0xa679438e, 0x49b40821, 0xf61e2562, 0xc040b340,
    0x265e5a51, 0xe9b6c7aa, 0xd62f105d, 0x02441453, 0xd8a1e681, 0xe7d3fbc8,
    0x21e1cde6, 0xc33707d6, 0xf4d50d87, 0x455a14ed, 0xa9e3e905, 0xfcefa3f8,
    0x676f02d9, 0x8d2a4c8a, 0xfffa3942, 0x8771f681, 0x6d9d6122, 0xfde5380c,
    0xa4beea44, 0x4bdecfa9, 0xf6bb4b60, 0xbebfbc70, 0x289b7ec6, 0xeaa127fa,
    0xd4ef3085, 0x04881d05, 0xd9d4d039, 0xe6db99e5, 0x1fa27cf8, 0xc4ac5665,
    0xf4292244, 0x432aff97, 0xab9423a7, 0xfc93a039, 0x655b59c3, 0x8f0ccc92,
    0xffeff47d, 0x85845dd1, 0x6fa87e4f, 0xfe2ce6e0, 0xa3014314, 0x4e0811a1,
    0xf7537e82, 0xbd3af235, 0x2ad7d2bb, 0xeb86d391]

def shifts : List (List ℕ) := [[7, 12, 17, 22], [5, 9, 14, 20], [4, 11, 16, 23], [6, 10, 15, 21]]

structure State where
  a : Word
  b : Word
  c : Word
  d : Word

def State.init : State := { a := 0x67452301, b := 0xefcdab89, c := 0x98badcfe, d := 0x10325476 }

/-- The round's boolean function and the index of the message word it adds. -/
def mix (s : State) (i : ℕ) : Word × ℕ :=
  match i / 16 with
  | 0 => ((s.b &&& s.c) ||| (s.b.not &&& s.d), i)
  | 1 => ((s.d &&& s.b) ||| (s.d.not &&& s.c), (5 * i + 1) % 16)
  | 2 => (s.b ^^^ s.c ^^^ s.d, (3 * i + 5) % 16)
  | _ => (s.c ^^^ (s.b ||| s.d.not), (7 * i) % 16)

def step (words : List Word) (s : State) (i : ℕ) : State :=
  let (f, g) := mix s i
  let sum := ((f.add s.a).add (sines.getD i 0)).add (words.getD g 0)
  let shift := (shifts.getD (i / 16) []).getD (i % 4) 0
  { a := s.d, b := s.b.add (sum.rotateLeft shift), c := s.b, d := s.c }

/-- Little-endian value of a group of bytes. -/
def littleEndian : List UInt8 → ℕ
  | [] => 0
  | b :: bs => b.toNat + 256 * littleEndian bs

def toLittleEndian : ℕ → ℕ → List UInt8
  | 0, _ => []
  | n + 1, x => UInt8.ofNat (x % 256) :: toLittleEndian n (x / 256)

def block (s : State) (chunk : List UInt8) : State :=
  let words := (List.range 16).map fun i => littleEndian ((chunk.drop (4 * i)).take 4)
  let t := (List.range 64).foldl (step words) s
  { a := s.a.add t.a, b := s.b.add t.b, c := s.c.add t.c, d := s.d.add t.d }

/-- The message, a one bit, zeros up to 56 modulo 64, and the length in bits. -/
def pad (msg : GoString) : List UInt8 :=
  msg ++ 0x80 :: List.replicate ((119 - msg.length % 64) % 64) 0 ++
    toLittleEndian 8 (8 * msg.length)

/-- `md5.Sum`. -/
def sum (msg : GoString) : GoString :=
  let padded := pad msg
  let s := (List.range (padded.length / 64)).foldl
    (fun s i => block s ((padded.drop (64 * i)).take 64)) State.init
  [s.a, s.b, s.c, s.d].flatMap (toLittleEndian 4)

def hexDigit (n : ℕ) : UInt8 := UInt8.ofNat (if n < 10 then 48 + n else 87 + n)

/-- `fmt.Sprintf("%x", ..)` of a byte array. -/
def hex (bytes : GoString) : GoString :=
  bytes.flatMap fun b => [hexDigit (b.toNat / 16), hexDigit (b.toNat % 16)]

/-- The digest of `"abc"` starts with `900150`. -/
example : (hex (sum [97, 98, 99])).take 6 = [57, 48, 48, 49, 53, 48] := by decide +kernel

end Groupcache.Md5
