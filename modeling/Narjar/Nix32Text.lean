import Mathlib.Data.Nat.Bitwise
import Narjar.ObjectNames

/-!
# The base-32 text of a digest

The digits of a digest are written from its bits, the least significant bit of the first byte
first, and reversed. Nix itself takes each digit from one or two bytes of the digest. The encoding
comes from a library, of which only the order of the bits and the refusal of non-zero trailing bits
are assumed.
-/
namespace Nix32Text

open ByteCodecs ManifestFormat ObjectNames

def bit (bytes : Bytes) (k : ℕ) : Bool := (bytes.getD (k / 8) 0).toNat.testBit (k % 8)

def digitBit (digits : List ℕ) (k : ℕ) : Bool := (digits.getD (k / 5) 0).testBit (k % 5)

/-- What `nix32_encoding` returns, as far as it is used. -/
structure Encoding where
  encodeMut : Bytes → Bytes
  decodeMut : Bytes → Option Bytes

namespace Encoding

/-- Base 32 with the alphabet of Nix and `BitOrder::LeastSignificantFirst`. A text has no symbol
that holds trailing bits only, and its trailing bits are zero. -/
structure LeastSignificantFirst (E : Encoding) : Prop where
  encodes : ∀ input, E.encodeMut input = (List.range ((8 * input.length + 4) / 5)).map fun k =>
    nix32Alphabet.getD (Nat.ofBits fun m : Fin 5 => bit input (5 * k + m)) 0
  decodes : ∀ text output, E.decodeMut text = some output ↔
    ∃ digits, text.mapM nix32Digit = some digits ∧ 5 * text.length % 8 < 5 ∧
      output.length = 5 * text.length / 8 ∧ ∀ k, bit output k = digitBit digits k

def encodeNix32 (E : Encoding) (digest : Digest) : Bytes := (E.encodeMut digest.bytes).reverse

def decodeSha256 (E : Encoding) (value : Bytes) : Option Digest :=
  if value.length = 52 then do
    let decoded ← E.decodeMut value.reverse
    if h : decoded.length = 32 then some ⟨decoded, h⟩ else none
  else none

end Encoding

/-- The digit of Nix at a position, which counts from the last one of the text. -/
def referenceDigit (hash : Digest) (n : ℕ) : ℕ :=
  let b := n * 5
  let i := b / 8
  let j := b % 8
  let high := if 31 ≤ i then 0 else (hash.bytes.getD (i + 1) 0).toNat <<< (8 - j)
  ((hash.bytes.getD i 0).toNat >>> j ||| high) % 256 &&& 31

def referenceText (hash : Digest) : Bytes :=
  (List.range 52).reverse.map fun n => nix32Alphabet.getD (referenceDigit hash n) 0

theorem testBit_leValue (bytes : Bytes) (k : ℕ) : (leValue bytes).testBit k = bit bytes k := by
  induction bytes generalizing k with
  | nil => simp [leValue, bit]
  | cons byte bytes ih =>
    have hb : byte.toNat < 2 ^ 8 := byte.toNat_lt
    rw [leValue, Nat.add_comm, ← (by decide : 2 ^ 8 = 256), Nat.testBit_two_pow_mul_add _ hb]
    by_cases hk : k < 8
    · rw [if_pos hk, bit, Nat.div_eq_of_lt hk, Nat.mod_eq_of_lt hk]
      rfl
    · rw [if_neg hk, ih, bit, bit]
      obtain ⟨l, rfl⟩ := Nat.exists_eq_add_of_le (Nat.not_lt.1 hk)
      simp [Nat.add_div_left]

theorem testBit_digit (bytes : Bytes) (k m : ℕ) :
    (leValue bytes / 32 ^ k % 32).testBit m = (decide (m < 5) && bit bytes (5 * k + m)) := by
  rw [← (by decide : 2 ^ 5 = 32), ← pow_mul, Nat.testBit_mod_two_pow, Nat.testBit_div_two_pow,
    testBit_leValue, Nat.add_comm]

theorem digit_eq_ofBits (bytes : Bytes) (k : ℕ) :
    leValue bytes / 32 ^ k % 32 = Nat.ofBits fun m : Fin 5 => bit bytes (5 * k + m) := by
  apply Nat.eq_of_testBit_eq
  intro m
  rw [testBit_digit]
  by_cases hm : m < 5
  · simp [hm]
  · simp [hm, Nat.testBit_ofBits_ge _ _ (Nat.not_lt.1 hm)]

theorem digit_eq_reference (hash : Digest) (n : ℕ) :
    leValue hash.bytes / 32 ^ n % 32 = referenceDigit hash n := by
  have hh : ∀ i k, (if 31 ≤ i then 0 else (hash.bytes.getD (i + 1) 0).toNat <<< k) =
      (hash.bytes.getD (i + 1) 0).toNat <<< k := by
    intro i k
    split_ifs with hi
    · rw [List.getD_eq_default _ _ (by rw [hash.length_eq]; omega)]
      simp
    · rfl
  apply Nat.eq_of_testBit_eq
  intro m
  rw [testBit_digit, referenceDigit, hh, ← (by decide : 2 ^ 5 - 1 = 31), Nat.and_two_pow_sub_one_eq_mod,
    Nat.mod_mod_of_dvd _ (by decide), Nat.testBit_mod_two_pow, Nat.testBit_or,
    Nat.testBit_shiftRight, Nat.testBit_shiftLeft]
  by_cases h : m < 5
  swap
  · rw [decide_eq_false h, Bool.false_and, Bool.false_and]
  rw [decide_eq_true h, Bool.true_and, Bool.true_and]
  have hl : ∀ byte : UInt8, ∀ k, 8 ≤ k → byte.toNat.testBit k = false := fun byte k hk =>
    Nat.testBit_lt_two_pow (byte.toNat_lt.trans_le (Nat.pow_le_pow_right (by decide) hk))
  -- The bit is in the byte of the digit or, past its end, in the byte after it.
  by_cases hm : n * 5 % 8 + m < 8
  · have hq : (5 * n + m) / 8 = n * 5 / 8 := by omega
    have hr : (5 * n + m) % 8 = n * 5 % 8 + m := by omega
    have hg : ¬m ≥ 8 - n * 5 % 8 := by omega
    rw [bit, hq, hr, decide_eq_false hg, Bool.false_and, Bool.or_false]
  · have hq : (5 * n + m) / 8 = n * 5 / 8 + 1 := by omega
    have hr : (5 * n + m) % 8 = m - (8 - n * 5 % 8) := by omega
    have hg : m ≥ 8 - n * 5 % 8 := by omega
    rw [bit, hq, hr, decide_eq_true hg, hl _ _ (Nat.not_lt.1 hm), Bool.true_and, Bool.false_or]

theorem testBit_nix32Value {digits : List ℕ} (h : ∀ digit ∈ digits, digit < 32) (k : ℕ) :
    (nix32Value digits).testBit k = digitBit digits k := by
  induction digits generalizing k with
  | nil => simp [nix32Value, digitBit]
  | cons digit digits ih =>
    have hd : digit < 2 ^ 5 := h digit List.mem_cons_self
    have hs := ih fun other ho => h other (List.mem_cons_of_mem digit ho)
    rw [nix32Value, Nat.add_comm, ← (by decide : 2 ^ 5 = 32), Nat.testBit_two_pow_mul_add _ hd]
    by_cases hk : k < 5
    · rw [if_pos hk, digitBit, Nat.div_eq_of_lt hk, Nat.mod_eq_of_lt hk]
      rfl
    · rw [if_neg hk, hs, digitBit, digitBit]
      obtain ⟨l, rfl⟩ := Nat.exists_eq_add_of_le (Nat.not_lt.1 hk)
      simp [Nat.add_div_left]

/-- The encoding by the number whose digits are written. -/
def valueEncoding : Encoding where
  encodeMut input := (List.range ((8 * input.length + 4) / 5)).map fun k =>
    nix32Alphabet.getD (leValue input / 32 ^ k % 32) 0
  decodeMut text := do
    let digits ← text.mapM nix32Digit
    if 5 * text.length % 8 < 5 ∧ nix32Value digits < 256 ^ (5 * text.length / 8) then
      some (leBytes (5 * text.length / 8) (nix32Value digits))
    else none

theorem valueEncoding_leastSignificantFirst : valueEncoding.LeastSignificantFirst := by
  refine ⟨fun input => List.map_congr_left fun k _ => by rw [digit_eq_ofBits], fun text output => ?_⟩
  rw [valueEncoding, Option.bind_eq_bind, Option.bind_eq_some_iff]
  refine exists_congr fun digits => and_congr_right fun hd => ?_
  have hb := testBit_nix32Value (mapM_nix32Digit hd).1
  constructor
  · intro h
    split_ifs at h with hc
    cases Option.some.inj h
    refine ⟨hc.1, length_leBytes _ _, fun k => ?_⟩
    rw [← testBit_leValue, leValue_leBytes _ _ hc.2, hb]
  · rintro ⟨hl, hs, hk⟩
    have hv : leValue output = nix32Value digits := by
      apply Nat.eq_of_testBit_eq
      intro k
      rw [testBit_leValue, hk, hb]
    have hlt := leValue_lt output
    rw [hv, hs] at hlt
    rw [if_pos ⟨hl, hlt⟩, ← hv, ← hs, leBytes_leValue]

section Conforming

variable {E : Encoding} (h : E.LeastSignificantFirst)
include h

theorem encodeNix32_eq (digest : Digest) : E.encodeNix32 digest = encodeNix32 digest := by
  rw [Encoding.encodeNix32, h.encodes, digest.length_eq, encodeNix32, ← List.map_reverse]
  exact List.map_congr_left fun k _ => by rw [digit_eq_ofBits]

theorem decodeSha256_eq (text : Bytes) : E.decodeSha256 text = decodeSha256 text := by
  have hm : E.decodeMut = valueEncoding.decodeMut := by
    funext text
    refine Option.ext fun output => ?_
    exact (h.decodes text output).trans (valueEncoding_leastSignificantFirst.decodes ..).symm
  rw [Encoding.decodeSha256, decodeSha256, hm, valueEncoding]
  by_cases hl : text.length = 52
  · rw [if_pos hl, if_pos hl]
    dsimp only
    rw [List.length_reverse, hl]
    cases text.reverse.mapM nix32Digit with
    | none => rfl
    | some digits =>
      simp only [Option.bind_eq_bind, Option.bind_some, -Nat.reduceMul]
      by_cases hv : nix32Value digits < 256 ^ 32
      · rw [if_pos ⟨by decide, hv⟩, if_pos hv, Option.bind_some]
        exact dif_pos (length_leBytes 32 _)
      · rw [if_neg fun hc => hv hc.2, if_neg hv]
        rfl
  · rw [if_neg hl, if_neg hl]

end Conforming

/-- With every such encoding, the text of a digest is the one that Nix writes, and it and the names
of NAR files are read back as they were written. -/
theorem texts_are_bijective {E : Encoding} (hencoding : E.LeastSignificantFirst) :
    (∀ digest, E.encodeNix32 digest = referenceText digest ∧
      E.decodeSha256 (E.encodeNix32 digest) = some digest) ∧
    (∀ text digest, E.decodeSha256 text = some digest → E.encodeNix32 digest = text) ∧
    (E.encodeNix32 = encodeNix32 ∧ E.decodeSha256 = decodeSha256) ∧
    (∀ name : NarFileName, NarFileName.parse name.asStr = some name) ∧
    ∀ text name, NarFileName.parse text = some name → name.asStr = text := by
  have he := funext (encodeNix32_eq hencoding)
  have hd := funext (decodeSha256_eq hencoding)
  rw [he, hd]
  refine ⟨fun digest => ⟨?_, decodeSha256_encodeNix32 digest⟩, ?_, ⟨rfl, rfl⟩, ?_, ?_⟩
  · exact List.map_congr_left fun k _ => by rw [digit_eq_reference]
  · exact fun _ _ => encodeNix32_of_decodeSha256
  · exact NarFileName.parse_asStr
  · exact fun _ _ => NarFileName.asStr_of_parse

/-- The digest of no bytes at all. -/
def emptyDigest : Digest := .ofNat 0xe3b0c44298fc1c149afbf4c8996fb92427ae41e4649b934ca495991b7852b855

def emptyDigestText : Bytes :=
  NarFormat.ascii "0mdqa9w1p6cmli6976v4wi0sw9r4p5prkj7lzfd1877wk11c9c73".toList

theorem emptyDigest_reads_back : valueEncoding.LeastSignificantFirst ∧
    valueEncoding.encodeNix32 emptyDigest = emptyDigestText ∧
    valueEncoding.decodeSha256 emptyDigestText = some emptyDigest := by
  have hr : referenceText emptyDigest = emptyDigestText := by decide +kernel
  obtain ⟨hd, -⟩ := texts_are_bijective valueEncoding_leastSignificantFirst
  obtain ⟨he, hb⟩ := hd emptyDigest
  rw [he, hr] at hb
  exact ⟨valueEncoding_leastSignificantFirst, he.trans hr, hb⟩

end Nix32Text
