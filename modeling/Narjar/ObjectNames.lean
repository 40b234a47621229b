import Narjar.ManifestFormat
import Narjar.TextFields

/-!
# Names of stored objects

Store hashes, store paths and the file names of NAR payloads, with their texts.
-/
namespace ObjectNames

open ByteCodecs NarFormat ManifestFormat TextFields List

def nix32Alphabet : Bytes :=
  ascii ['0', '1', '2', '3', '4', '5', '6', '7', '8', '9', 'a', 'b', 'c', 'd', 'f', 'g', 'h', 'i',
    'j', 'k', 'l', 'm', 'n', 'p', 'q', 'r', 's', 'v', 'w', 'x', 'y', 'z']

def validNix32 (value : Bytes) (expectedLength : ℕ) : Bool :=
  value.length == expectedLength && value.all fun byte => nix32Alphabet.contains byte

/-- The digits of the digest as a little-endian number, most significant first. -/
def encodeNix32 (digest : Digest) : Bytes :=
  (List.range 52).reverse.map fun k => nix32Alphabet.getD (leValue digest.bytes / 32 ^ k % 32) 0

def nix32Digit (byte : UInt8) : Option ℕ := nix32Alphabet.findIdx? (· == byte)

def nix32Value : List ℕ → ℕ
  | [] => 0
  | digit :: digits => digit + 32 * nix32Value digits

/-- The inverse of `encodeNix32`: fifty-two digits, of which the first must leave no bit beyond
the digest. -/
def decodeSha256 (value : Bytes) : Option Digest :=
  if value.length = 52 then do
    let digits ← value.reverse.mapM nix32Digit
    if nix32Value digits < 256 ^ 32 then
      some ⟨leBytes 32 (nix32Value digits), length_leBytes 32 _⟩
    else none
  else none

variable {byte : UInt8} {i : ℕ} {value : Bytes} {digest : Digest} {store : StoreHash}

theorem nix32Digit_getD (h : i < 32) : nix32Digit (nix32Alphabet.getD i 0) = some i := by
  have ha : ∀ j < 32, nix32Digit (nix32Alphabet.getD j 0) = some j := by decide
  exact ha i h

theorem nix32Value_digits (n v : ℕ) :
    nix32Value ((List.range n).map fun k => v / 32 ^ k % 32) = v % 32 ^ n := by
  induction n generalizing v with
  | zero =>
    rw [pow_zero, Nat.mod_one]
    rfl
  | succ n ih =>
    have hs : (List.range n).map ((fun k => v / 32 ^ k % 32) ∘ Nat.succ) =
        (List.range n).map fun k => v / 32 / 32 ^ k % 32 := by
      refine map_congr_left fun k _ => ?_
      rw [Function.comp_apply, Nat.div_div_eq_div_mul, ← pow_succ']
    rw [range_succ_eq_map, map_cons, map_map, hs, nix32Value, ih, pow_zero, Nat.div_one, pow_succ']
    exact (Nat.mod_mul ..).symm

@[simp] theorem length_encodeNix32 (digest : Digest) : (encodeNix32 digest).length = 52 := by
  simp [encodeNix32]

theorem decodeSha256_encodeNix32 (digest : Digest) :
    decodeSha256 (encodeNix32 digest) = some digest := by
  have hd : (encodeNix32 digest).reverse.mapM nix32Digit =
      some ((List.range 52).map fun k => leValue digest.bytes / 32 ^ k % 32) := by
    rw [encodeNix32, ← map_reverse, reverse_reverse]
    generalize List.range 52 = ks
    induction ks with
    | nil => rfl
    | cons k ks ih =>
      rw [map_cons, mapM_cons, nix32Digit_getD (Nat.mod_lt _ (by decide)), ih]
      rfl
  have hv : leValue digest.bytes < 256 ^ 32 := by
    have hlt := leValue_lt digest.bytes
    rwa [digest.length_eq] at hlt
  have hm : leValue digest.bytes % 32 ^ 52 = leValue digest.bytes :=
    Nat.mod_eq_of_lt (hv.trans_le (by decide))
  have hb : leBytes 32 (leValue digest.bytes) = digest.bytes := by
    have hr := leBytes_leValue digest.bytes
    rwa [digest.length_eq] at hr
  rw [decodeSha256, if_pos (length_encodeNix32 digest), hd]
  simp only [Option.bind_eq_bind, Option.bind_some, nix32Value_digits, hm, if_pos hv, hb]

theorem nix32Digit_eq_some (h : nix32Digit byte = some i) :
    i < 32 ∧ nix32Alphabet.getD i 0 = byte := by
  obtain ⟨hi, hb, -⟩ := List.findIdx?_eq_some_iff_getElem.1 h
  refine ⟨hi, ?_⟩
  rw [List.getD, List.getElem?_eq_getElem hi]
  exact beq_iff_eq.1 hb

theorem mapM_nix32Digit {bytes : Bytes} {digits : List ℕ}
    (h : bytes.mapM nix32Digit = some digits) :
    (∀ digit ∈ digits, digit < 32) ∧ digits.map (fun digit => nix32Alphabet.getD digit 0) = bytes := by
  induction bytes generalizing digits with
  | nil =>
    cases Option.some.inj h
    exact ⟨forall_mem_nil _, rfl⟩
  | cons byte bytes ih =>
    rw [mapM_cons] at h
    obtain ⟨digit, hd, h⟩ := Option.bind_eq_some_iff.1 h
    obtain ⟨rest, hr, h⟩ := Option.bind_eq_some_iff.1 h
    cases Option.some.inj h
    obtain ⟨hlt, hb⟩ := nix32Digit_eq_some hd
    obtain ⟨hs, hy⟩ := ih hr
    exact ⟨forall_mem_cons.2 ⟨hlt, hs⟩, by rw [map_cons, hb, hy]⟩

theorem digits_nix32Value (digits : List ℕ) (h : ∀ digit ∈ digits, digit < 32) :
    (List.range digits.length).map (fun k => nix32Value digits / 32 ^ k % 32) = digits := by
  induction digits with
  | nil => rfl
  | cons digit digits ih =>
    have hg := h digit mem_cons_self
    have hr := ih fun d hd => h d (mem_cons_of_mem digit hd)
    have hs : (List.range digits.length).map
        ((fun k => nix32Value (digit :: digits) / 32 ^ k % 32) ∘ Nat.succ) =
        (List.range digits.length).map fun k => nix32Value digits / 32 ^ k % 32 := by
      refine map_congr_left fun k _ => ?_
      have hi : (digit + 32 * nix32Value digits) / 32 = nix32Value digits := by omega
      rw [Function.comp_apply, nix32Value, pow_succ', ← Nat.div_div_eq_div_mul, hi]
    rw [length_cons, range_succ_eq_map, map_cons, map_map, hs, hr,
      nix32Value, pow_zero, Nat.div_one]
    congr 1
    omega

theorem encodeNix32_of_decodeSha256 (h : decodeSha256 value = some digest) :
    encodeNix32 digest = value := by
  rw [decodeSha256] at h
  split_ifs at h with hl
  obtain ⟨digits, hd, h⟩ := Option.bind_eq_some_iff.1 h
  split_ifs at h with ho
  cases Option.some.inj h
  obtain ⟨hm, hb⟩ := mapM_nix32Digit hd
  have hc : digits.length = 52 := by
    have hs := congrArg List.length hb
    rwa [length_map, length_reverse, hl] at hs
  have hr := digits_nix32Value digits hm
  rw [hc] at hr
  have he : (encodeNix32 ⟨leBytes 32 (nix32Value digits), length_leBytes 32 _⟩).reverse =
      value.reverse := by
    rw [encodeNix32, leValue_leBytes 32 _ ho, map_reverse, reverse_reverse, ← hb]
    conv_rhs => rw [← hr]
    rw [map_map]
    rfl
  exact reverse_injective he

theorem encodeNix32_injective : Function.Injective encodeNix32 := by
  intro d e h
  have hd := decodeSha256_encodeNix32 d
  rw [h, decodeSha256_encodeNix32] at hd
  exact (Option.some.inj hd).symm

theorem mem_encodeNix32 (h : byte ∈ encodeNix32 digest) : byte ∈ nix32Alphabet := by
  obtain ⟨k, -, rfl⟩ := mem_map.1 h
  have ha : ∀ j < 32, nix32Alphabet.getD j 0 ∈ nix32Alphabet := by decide
  exact ha _ (Nat.mod_lt _ (by decide))

def hexAlphabet : Bytes :=
  ascii ['0', '1', '2', '3', '4', '5', '6', '7', '8', '9', 'a', 'b', 'c', 'd', 'e', 'f']

def hexName (digest : Digest) : Bytes :=
  digest.bytes.flatMap fun byte =>
    [hexAlphabet.getD (byte.toNat / 16) 0, hexAlphabet.getD (byte.toNat % 16) 0]

@[simp] theorem length_hexName (digest : Digest) : (hexName digest).length = 64 := by
  simp [hexName, length_flatMap]

def isAsciiHexdigit (byte : UInt8) : Bool :=
  (48 ≤ byte ∧ byte ≤ 57) ∨ (97 ≤ byte ∧ byte ≤ 102) ∨ (65 ≤ byte ∧ byte ≤ 70)

theorem hexName_all (digest : Digest) : (hexName digest).all isAsciiHexdigit = true := by
  have ha : ∀ i < 16, isAsciiHexdigit (hexAlphabet.getD i 0) = true := by decide
  rw [hexName, all_flatMap, all_eq_true]
  intro byte _
  have hb := byte.toNat_lt
  rw [all_cons, all_cons, ha (byte.toNat / 16) (by omega), ha (byte.toNat % 16) (by omega)]
  rfl

def hexDigit (byte : UInt8) : Option UInt8 :=
  if 48 ≤ byte ∧ byte ≤ 57 then some (byte - 48)
  else if 97 ≤ byte ∧ byte ≤ 102 then some (byte - 97 + 10)
  else if 65 ≤ byte ∧ byte ≤ 70 then some (byte - 65 + 10)
  else none

def hexPairs : Bytes → Option Bytes
  | [] => some []
  | [_] => none
  | high :: low :: rest => do
    let high ← hexDigit high
    let low ← hexDigit low
    let bytes ← hexPairs rest
    some ((high * 16 + low) :: bytes)

def parseChunkHash (hex : Bytes) : Option Digest := do
  let bytes ← hexPairs hex
  if h : bytes.length = 32 then some ⟨bytes, h⟩ else none

theorem hexPairs_isSome (hl : hex.length = 2 * n)
    (hd : hex.all isAsciiHexdigit = true) :
    ∃ bytes, hexPairs hex = some bytes ∧ bytes.length = n := by
  have hi : ∀ byte, isAsciiHexdigit byte = true → ∃ d, hexDigit byte = some d := by
    intro byte hb
    simp only [isAsciiHexdigit, decide_eq_true_eq] at hb
    unfold hexDigit
    split_ifs with he hw hu
    · exact ⟨_, rfl⟩
    · exact ⟨_, rfl⟩
    · exact ⟨_, rfl⟩
    · exact absurd hb (by tauto)
  induction n generalizing hex with
  | zero =>
    rw [length_eq_zero_iff.1 hl]
    exact ⟨[], rfl, rfl⟩
  | succ n ih =>
    match hex, hl, hd with
    | high :: low :: rest, hl, hd =>
      simp only [all_cons, Bool.and_eq_true] at hd
      simp only [length_cons] at hl
      obtain ⟨h, hh⟩ := hi high hd.1
      obtain ⟨l, ho⟩ := hi low hd.2.1
      obtain ⟨bytes, hy, hc⟩ := ih (by omega) hd.2.2
      refine ⟨(h * 16 + l) :: bytes, ?_, by rw [length_cons, hc]⟩
      simp [hexPairs, hh, ho, hy]

theorem hexPairs_hexName (bytes : Bytes) :
    hexPairs (bytes.flatMap fun byte =>
      [hexAlphabet.getD (byte.toNat / 16) 0, hexAlphabet.getD (byte.toNat % 16) 0]) = some bytes := by
  have hd : ∀ i < 16, hexDigit (hexAlphabet.getD i 0) = some (UInt8.ofNat i) := by decide
  induction bytes with
  | nil => rfl
  | cons byte bytes ih =>
    have hb := byte.toNat_lt
    have hv : UInt8.ofNat (byte.toNat / 16) * 16 + UInt8.ofNat (byte.toNat % 16) = byte := by
      apply UInt8.toNat_inj.1
      simp only [UInt8.toNat_add, UInt8.toNat_mul, UInt8.toNat_ofNat', UInt8.reduceToNat]
      omega
    rw [flatMap_cons]
    simp only [cons_append, nil_append, hexPairs, hd (byte.toNat / 16) (by omega),
      hd (byte.toNat % 16) (by omega), ih, hv, Option.bind_eq_bind, Option.bind_some]

theorem parseChunkHash_hexName (digest : Digest) : parseChunkHash (hexName digest) = some digest := by
  rw [parseChunkHash, hexName, hexPairs_hexName]
  exact dif_pos digest.length_bytes

@[ext] structure StoreHash where
  bytes : Bytes
  valid : validNix32 bytes 32 = true
  deriving DecidableEq

theorem StoreHash.length_bytes (store : StoreHash) : store.bytes.length = 32 := by
  have hv := store.valid
  rw [validNix32, Bool.and_eq_true, beq_iff_eq] at hv
  exact hv.1

theorem valid_zeros : validNix32 (List.replicate 32 48) 32 = true := rfl

theorem valid_ones : validNix32 (List.replicate 32 49) 32 = true := rfl

theorem valid_twos : validNix32 (List.replicate 32 50) 32 = true := rfl

def StoreHash.parse (value : Bytes) : Option StoreHash :=
  if h : validNix32 value 32 = true then some ⟨value, h⟩ else none

@[simp] theorem StoreHash.parse_bytes (store : StoreHash) : parse store.bytes = some store :=
  dif_pos store.valid

theorem StoreHash.parse_eq_some (h : parse value = some store) : value = store.bytes := by
  unfold parse at h
  split_ifs at h
  rw [← Option.some.inj h]

theorem StoreHash.mem_bytes (h : byte ∈ store.bytes) : byte ∈ nix32Alphabet := by
  have hv := store.valid
  rw [validNix32, Bool.and_eq_true, all_eq_true] at hv
  simpa using hv.2 byte h

def isAsciiAlphanumeric (byte : UInt8) : Bool :=
  (48 ≤ byte ∧ byte ≤ 57) ∨ (65 ≤ byte ∧ byte ≤ 90) ∨ (97 ≤ byte ∧ byte ≤ 122)

def maxStoreNameBytes : ℕ := 211

def isStoreNameByte (byte : UInt8) : Bool :=
  isAsciiAlphanumeric byte || (ascii ['+', '-', '.', '_', '?', '=']).contains byte

def validStoreName (name : Bytes) : Bool :=
  !name.isEmpty && decide (name.length ≤ maxStoreNameBytes) && name != ascii ['.'] &&
    name != ascii ['.', '.'] && !(ascii ['.', '-']).isPrefixOf name &&
    !(ascii ['.', '.', '-']).isPrefixOf name && name.all isStoreNameByte

theorem valid_letter : validStoreName [97] = true := rfl

def storePrefix : Bytes := ascii ['/', 'n', 'i', 'x', '/', 's', 't', 'o', 'r', 'e', '/']

@[ext] structure NixStorePath where
  store : StoreHash
  name : Bytes
  validName : validStoreName name = true
  deriving DecidableEq

/-- A complete store basename with its hash and name. -/
def validateStoreBasename (value : Bytes) : Option NixStorePath := do
  let (hash, name) ← splitOnce (ascii ['-']) value
  if h : validStoreName name = true then
    let store ← StoreHash.parse hash
    some ⟨store, name, h⟩
  else none

namespace NixStorePath

def basename (path : NixStorePath) : Bytes := path.store.bytes ++ (ascii ['-'] ++ path.name)

def asStr (path : NixStorePath) : Bytes :=
  storePrefix ++ (path.store.bytes ++ (ascii ['-'] ++ path.name))

def parse (value : Bytes) : Option NixStorePath := do
  let basename ← value.dropPrefix? storePrefix
  validateStoreBasename basename

def fromBasename (value : Bytes) : Option NixStorePath := parse (storePrefix ++ value)

theorem asStr_eq (path : NixStorePath) : path.asStr = storePrefix ++ path.basename := rfl

theorem validateStoreBasename_basename (path : NixStorePath) :
    validateStoreBasename path.basename = some path := by
  have hd : (45 : UInt8) ∉ path.store.bytes := fun hm => absurd (StoreHash.mem_bytes hm) (by decide)
  have hs : splitOnce (ascii ['-']) path.basename = some (path.store.bytes, path.name) :=
    splitOnce_append hd path.name
  simp [validateStoreBasename, hs, path.validName]

variable {path : NixStorePath} {value : Bytes}

@[simp] theorem parse_asStr (path : NixStorePath) : parse path.asStr = some path := by
  rw [parse, asStr_eq, dropPrefix?_append]
  exact validateStoreBasename_basename path

@[simp] theorem fromBasename_basename (path : NixStorePath) :
    fromBasename path.basename = some path := parse_asStr path

theorem asStr_injective : Function.Injective asStr := by
  intro p q h
  have hp := parse_asStr p
  rw [h, parse_asStr] at hp
  exact (Option.some.inj hp).symm

theorem mem_basename (h : byte ∈ path.basename) : isStoreNameByte byte = true := by
  have hn := path.validName
  simp only [validStoreName, Bool.and_eq_true, all_eq_true] at hn
  have ha : ∀ b ∈ nix32Alphabet, isStoreNameByte b = true := all_eq_true.1 (by decide)
  rw [basename, mem_append, mem_append] at h
  rcases h with hs | hd | hm
  · exact ha byte (StoreHash.mem_bytes hs)
  · rw [mem_singleton.1 hd]
    rfl
  · exact hn.2 byte hm

theorem store_eq_of_asStr_eq {p q : NixStorePath} (h : p.asStr = q.asStr) : p.store = q.store := by
  have hr := append_cancel_left h
  have hl : p.store.bytes.length = q.store.bytes.length := by
    rw [p.store.length_bytes, q.store.length_bytes]
  exact StoreHash.ext (append_inj hr hl).1

theorem asStr_ne_store (p : NixStorePath) (store : StoreHash) : p.asStr ≠ store.bytes := by
  intro h
  have hl := congrArg List.length h
  rw [store.length_bytes] at hl
  simp only [asStr, storePrefix, ascii, length_append, length_map, length_cons,
    length_nil, p.store.length_bytes] at hl
  omega

end NixStorePath

inductive CompressionCodec where
  | zstd
  | xz
  deriving DecidableEq

def CompressionCodec.suffix : CompressionCodec → Bytes
  | zstd => ascii ['.', 'n', 'a', 'r', '.', 'z', 's', 't']
  | xz => ascii ['.', 'n', 'a', 'r', '.', 'x', 'z']

inductive WireEncoding where
  | raw
  | compressed (codec : CompressionCodec)
  deriving DecidableEq

def WireEncoding.suffix : WireEncoding → Bytes
  | raw => ascii ['.', 'n', 'a', 'r']
  | compressed codec => codec.suffix

def WireEncoding.compression : WireEncoding → Bytes
  | raw => ascii ['n', 'o', 'n', 'e']
  | compressed .zstd => ascii ['z', 's', 't', 'd']
  | compressed .xz => ascii ['x', 'z']

def WireEncoding.fromStr (value : Bytes) : Option WireEncoding :=
  [raw, compressed .zstd, compressed .xz].find? fun encoding => encoding.compression = value

@[simp] theorem WireEncoding.fromStr_compression (encoding : WireEncoding) :
    fromStr encoding.compression = some encoding := by
  rcases encoding with _ | (_ | _) <;> decide

structure NarFileName where
  fileHash : Digest
  encoding : WireEncoding
  deriving DecidableEq

namespace NarFileName

def raw (hash : Digest) : NarFileName := ⟨hash, .raw⟩

/-- The hash of the NAR itself, which only a raw file name tells. -/
def rawHash (name : NarFileName) : Option Digest :=
  match name.encoding with
  | .raw => some name.fileHash
  | .compressed _ => none

def asStr (name : NarFileName) : Bytes := encodeNix32 name.fileHash ++ name.encoding.suffix

/-- The first suffix that fits decides the encoding. -/
def parse (name : Bytes) : Option NarFileName := do
  let (hash, encoding) ← [.compressed .zstd, .compressed .xz, .raw].findSome?
    fun encoding : WireEncoding => (name.dropSuffix? encoding.suffix).map fun hash => (hash, encoding)
  let fileHash ← decodeSha256 hash
  some ⟨fileHash, encoding⟩

theorem dropSuffix?_asStr (name : NarFileName) (encoding : WireEncoding) :
    name.asStr.dropSuffix? encoding.suffix =
      if encoding = name.encoding then some (encodeNix32 name.fileHash) else none := by
  by_cases h : encoding = name.encoding
  · rw [if_pos h, h, asStr, dropSuffix?_append]
  · rw [if_neg h]
    cases hd : name.asStr.dropSuffix? encoding.suffix with
    | none => rfl
    | some front =>
      have hl := congrArg List.getLast? (dropSuffix?_eq_some hd)
      have ha : ∀ e e' : WireEncoding, e.suffix.getLast? = e'.suffix.getLast? → e = e' := by
        rintro (_ | _ | _) (_ | _ | _) heq
        all_goals first | rfl | exact absurd heq (by decide)
      have hs : ∀ e : WireEncoding, e.suffix ≠ [] := by
        rintro (_ | _ | _) <;> decide
      rw [asStr, List.getLast?_append_of_ne_nil _ (hs _),
        List.getLast?_append_of_ne_nil _ (hs _)] at hl
      exact absurd (ha _ _ hl).symm h

@[simp] theorem parse_asStr (name : NarFileName) : parse name.asStr = some name := by
  obtain ⟨hash, encoding⟩ := name
  have hd := dropSuffix?_asStr ⟨hash, encoding⟩
  rcases encoding with _ | (_ | _)
  all_goals
    simp [parse, List.findSome?, hd, decodeSha256_encodeNix32]

theorem asStr_of_parse (h : parse value = some name) :
    name.asStr = value := by
  obtain ⟨⟨hash, encoding⟩, hf, h⟩ := Option.bind_eq_some_iff.1 h
  obtain ⟨fileHash, he, h⟩ := Option.bind_eq_some_iff.1 h
  cases Option.some.inj h
  obtain ⟨_, encoding', _, -, hd, -⟩ := List.findSome?_eq_some_iff.1 hf
  obtain ⟨hash', hd, heq⟩ := Option.map_eq_some_iff.1 hd
  cases heq
  rw [asStr, encodeNix32_of_decodeSha256 he]
  exact (dropSuffix?_eq_some hd).symm

end NarFileName

structure EncodedIdentity where
  codec : CompressionCodec
  hash : Digest
  size : ℕ
  deriving DecidableEq

inductive NarRepresentation where
  | raw (identity : NarIdentity)
  | compressed (encoded : EncodedIdentity) (decoded : NarIdentity)
  deriving DecidableEq

namespace NarRepresentation

def identity : NarRepresentation → NarIdentity
  | raw identity => identity
  | compressed _ decoded => decoded

def fileName : NarRepresentation → NarFileName
  | raw identity => .raw identity.hash
  | compressed encoded _ => ⟨encoded.hash, .compressed encoded.codec⟩

def encodedSize : NarRepresentation → ℕ
  | raw identity => identity.size
  | compressed encoded _ => encoded.size

end NarRepresentation

end ObjectNames
