import ProxyCache.Python.Text

/-!
# `hashlib.sha256`

SHA-256 over bytes given as natural numbers below 256; words are natural
numbers reduced modulo `2 ^ 32`.
-/

namespace ProxyCache.Python.Sha256

def word (n : ℕ) : ℕ := n % 4294967296

def rotr (x n : ℕ) : ℕ := word ((x >>> n) ||| (x <<< (32 - n)))

def roundConstants : List ℕ :=
  [0x428a2f98, 0x71374491, 0xb5c0fbcf, 0xe9b5dba5, 0x3956c25b, 0x59f111f1, 0x923f82a4, 0xab1c5ed5,
    0xd807aa98, 0x12835b01, 0x243185be, 0x550c7dc3, 0x72be5d74, 0x80deb1fe, 0x9bdc06a7, 0xc19bf174,
    0xe49b69c1, 0xefbe4786, 0x0fc19dc6, 0x240ca1cc, 0x2de92c6f, 0x4a7484aa, 0x5cb0a9dc, 0x76f988da,
    0x983e5152, 0xa831c66d, 0xb00327c8, 0xbf597fc7, 0xc6e00bf3, 0xd5a79147, 0x06ca6351, 0x14292967,
    0x27b70a85, 0x2e1b2138, 0x4d2c6dfc, 0x53380d13, 0x650a7354, 0x766a0abb, 0x81c2c92e, 0x92722c85,
    0xa2bfe8a1, 0xa81a664b, 0xc24b8b70, 0xc76c51a3, 0xd192e819, 0xd6990624, 0xf40e3585, 0x106aa070,
    0x19a4c116, 0x1e376c08, 0x2748774c, 0x34b0bcb5, 0x391c0cb3, 0x4ed8aa4a, 0x5b9cca4f, 0x682e6ff3,
    0x748f82ee, 0x78a5636f, 0x84c87814, 0x8cc70208, 0x90befffa, 0xa4506ceb, 0xbef9a3f7, 0xc67178f2]

/-- The chaining value, and the working variables of a block. -/
structure State where
  (a b c d e f g h : ℕ)

def initial : State :=
  ⟨0x6a09e667, 0xbb67ae85, 0x3c6ef372, 0xa54ff53a, 0x510e527f, 0x9b05688c, 0x1f83d9ab, 0x5be0cd19⟩

def round (s : State) (kw : ℕ) : State :=
  let s1 := rotr s.e 6 ^^^ rotr s.e 11 ^^^ rotr s.e 25
  let ch := (s.e &&& s.f) ^^^ ((4294967295 ^^^ s.e) &&& s.g)
  let t1 := s.h + s1 + ch + kw
  let s0 := rotr s.a 2 ^^^ rotr s.a 13 ^^^ rotr s.a 22
  let maj := (s.a &&& s.b) ^^^ (s.a &&& s.c) ^^^ (s.b &&& s.c)
  ⟨word (t1 + s0 + maj), s.a, s.b, s.c, word (s.d + t1), s.e, s.f, s.g⟩

/-- `n` more words of the message schedule, newest first. -/
def schedule : ℕ → List ℕ → List ℕ
  | 0, ws => ws
  | n + 1, ws =>
    let x := ws.getD 14 0
    let y := ws.getD 1 0
    let s0 := rotr x 7 ^^^ rotr x 18 ^^^ (x >>> 3)
    let s1 := rotr y 17 ^^^ rotr y 19 ^^^ (y >>> 10)
    schedule n (word (ws.getD 15 0 + s0 + ws.getD 6 0 + s1) :: ws)

def bigEndian (bytes : List ℕ) : ℕ := bytes.foldl (fun n b => 256 * n + b) 0

def compress (s : State) (block : List ℕ) : State :=
  let ws := (List.range 16).map fun i => bigEndian ((block.drop (4 * i)).take 4)
  let kws := List.zipWith (· + ·) roundConstants (schedule 48 ws.reverse).reverse
  let s' := kws.foldl round s
  ⟨word (s.a + s'.a), word (s.b + s'.b), word (s.c + s'.c), word (s.d + s'.d),
    word (s.e + s'.e), word (s.f + s'.f), word (s.g + s'.g), word (s.h + s'.h)⟩

def pad (message : List ℕ) : List ℕ :=
  let n := message.length
  message ++ 0x80 :: List.replicate ((119 - n % 64) % 64) 0 ++
    (List.range 8).map fun i => (8 * n) >>> (8 * (7 - i)) % 256

def blocks : ℕ → List ℕ → State → State
  | 0, _, s => s
  | n + 1, bytes, s => blocks n (bytes.drop 64) (compress s (bytes.take 64))

def hexChar (n : ℕ) : Char := if n < 10 then Char.ofNat (48 + n) else Char.ofNat (87 + n)

def hexWord (w : ℕ) : Str := (List.range 8).map fun i => hexChar (w >>> (4 * (7 - i)) % 16)

end Sha256

open Sha256

/-- `hashlib.sha256(message).hexdigest()`. -/
def sha256Hex (message : List ℕ) : Str :=
  let bytes := pad message
  let s := blocks (bytes.length / 64) bytes initial
  [s.a, s.b, s.c, s.d, s.e, s.f, s.g, s.h].flatMap hexWord

/-- `s.encode()`. -/
def utf8 (s : Str) : List ℕ := s.flatMap fun c => (String.utf8EncodeChar c).map UInt8.toNat

/-- `data.decode("utf-8")`; `none` is the `UnicodeDecodeError`. -/
def decodeUtf8Strict (data : Bytes) : Option Str :=
  (String.fromUTF8? ⟨data.toArray⟩).map String.toList

/-- What was decoded is what the text encodes to. -/
theorem utf8_of_decode {data : Bytes} {text : Str} (h : decodeUtf8Strict data = some text) :
    utf8 text = data.map UInt8.toNat := by
  obtain ⟨string, hstring, rfl⟩ := Option.map_eq_some_iff.mp h
  have hbytes : string.toByteArray = ⟨data.toArray⟩ := by
    unfold String.fromUTF8? at hstring
    split at hstring
    · obtain rfl := Option.some.inj hstring
      rfl
    · cases hstring
  have hencode : (string.toList.flatMap String.utf8EncodeChar).toByteArray = ⟨data.toArray⟩ := by
    rw [← hbytes, ← String.utf8Encode_toList]
    rfl
  have hlist : string.toList.flatMap String.utf8EncodeChar = data := by
    simpa using congrArg (fun bytes : ByteArray => bytes.data.toList) hencode
  rw [← hlist, List.map_flatMap]
  rfl

theorem utf8_injective : Function.Injective utf8 := by
  intro s s' h
  have hbytes : s.flatMap String.utf8EncodeChar = s'.flatMap String.utf8EncodeChar := by
    have hnat : Function.Injective UInt8.toNat := fun a b => UInt8.toNat_inj.mp
    have hmap : ∀ s : Str, utf8 s = (s.flatMap String.utf8EncodeChar).map UInt8.toNat :=
      fun s => List.map_flatMap.symm
    rw [hmap, hmap] at h
    exact List.map_injective_iff.mpr hnat h
  have hdecode : s.utf8Encode.utf8Decode? = s'.utf8Encode.utf8Decode? := by
    rw [List.utf8Encode, List.utf8Encode, hbytes]
  rw [List.utf8Decode?_utf8Encode, List.utf8Decode?_utf8Encode] at hdecode
  simpa using congrArg Array.toList (Option.some.inj hdecode)

/-- The two messages do not collide. -/
def CollisionFree (message message' : List ℕ) : Prop :=
  sha256Hex message = sha256Hex message' → message = message'

theorem Sha256.hexWord_length (w : ℕ) : (hexWord w).length = 8 := by
  simp [hexWord]

@[simp] theorem sha256Hex_length (message : List ℕ) : (sha256Hex message).length = 64 := by
  simp [sha256Hex, hexWord_length]

theorem Sha256.exists_of_mem_sha256Hex {message : List ℕ} {c : Char} (h : c ∈ sha256Hex message) :
    ∃ n < 16, c = hexChar n := by
  unfold sha256Hex at h
  obtain ⟨w, -, hc⟩ := List.mem_flatMap.mp h
  obtain ⟨i, -, rfl⟩ := List.mem_map.mp hc
  exact ⟨_, Nat.mod_lt _ (by decide), rfl⟩

/-- A digest is in lower case already. -/
@[simp] theorem lower_sha256Hex (U : Unicode) (message : List ℕ) :
    lower U (sha256Hex message) = sha256Hex message := by
  have hchar : ∀ n < 16, isAscii (hexChar n) = true ∧ (hexChar n).toLower = hexChar n := by decide
  have hall : ∀ c ∈ sha256Hex message, isAscii c = true ∧ c.toLower = id c := by
    intro c hc
    obtain ⟨n, hn, rfl⟩ := Sha256.exists_of_mem_sha256Hex hc
    exact hchar n hn
  rw [lower_ascii U (List.all_eq_true.mpr fun c hc => (hall c hc).1),
    List.map_congr_left fun c hc => (hall c hc).2, List.map_id]

end ProxyCache.Python
