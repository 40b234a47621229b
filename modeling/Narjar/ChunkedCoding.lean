import Narjar.TextFields

/-!
# Bodies in chunks

A body of unknown length is sent in chunks, each with its size in hexadecimal before it, and ended
by a chunk of size zero. Extensions and trailers, which may be left out, are left out.
-/
namespace ChunkedCoding

open ByteCodecs TextFields List

def hexDigit (d : ℕ) : UInt8 := UInt8.ofNat (if d < 10 then 48 + d else 87 + d)

def hexadecimal (n : ℕ) : Bytes :=
  if n = 0 then [48] else ((Nat.digits 16 n).map hexDigit).reverse

def hexDigitValue (byte : UInt8) : Option ℕ :=
  if 48 ≤ byte ∧ byte ≤ 57 then some (byte.toNat - 48)
  else if 97 ≤ byte ∧ byte ≤ 102 then some (byte.toNat - 87)
  else if 65 ≤ byte ∧ byte ≤ 70 then some (byte.toNat - 55)
  else none

def hexDigitsValue : ℕ → Bytes → Option ℕ
  | total, [] => some total
  | total, byte :: bytes => do
    let digit ← hexDigitValue byte
    hexDigitsValue (total * 16 + digit) bytes

def hexValue (bytes : Bytes) : Option ℕ := if bytes = [] then none else hexDigitsValue 0 bytes

theorem hexDigitValue_hexDigit (h : d < 16) : hexDigitValue (hexDigit d) = some d := by
  revert h
  revert d
  decide

theorem hexDigitsValue_append (total : ℕ) (front back : Bytes) :
    hexDigitsValue total (front ++ back) =
      (hexDigitsValue total front).bind fun total => hexDigitsValue total back := by
  induction front generalizing total with
  | nil => rfl
  | cons byte front ih =>
    simp only [cons_append, hexDigitsValue]
    cases hexDigitValue byte with
    | none => rfl
    | some digit => exact ih _

theorem hexDigitsValue_digits (hd : ∀ d ∈ ds, d < 16) :
    hexDigitsValue 0 (ds.map hexDigit).reverse = some (Nat.ofDigits 16 ds) := by
  induction ds with
  | nil => rfl
  | cons d ds ih =>
    have hv : Nat.ofDigits 16 (d :: ds) = Nat.ofDigits 16 ds * 16 + d := by
      rw [Nat.ofDigits_cons]
      omega
    rw [map_cons, reverse_cons, hexDigitsValue_append,
      ih fun d' hd' => hd d' (mem_cons_of_mem _ hd'), hv]
    simp [hexDigitsValue, hexDigitValue_hexDigit (hd d mem_cons_self)]

theorem hexadecimal_ne_nil (n : ℕ) : hexadecimal n ≠ [] := by
  unfold hexadecimal
  split_ifs with hz
  · exact cons_ne_nil _ _
  · simp only [ne_eq, reverse_eq_nil_iff, map_eq_nil_iff, Nat.digits_eq_nil_iff_eq_zero]
    exact hz

theorem hexValue_hexadecimal (n : ℕ) : hexValue (hexadecimal n) = some n := by
  rw [hexValue, if_neg (hexadecimal_ne_nil n), hexadecimal]
  split_ifs with hz
  · rw [hz]
    rfl
  · rw [hexDigitsValue_digits fun d hd => Nat.digits_lt_base (by decide) hd, Nat.ofDigits_digits]

theorem return_notMem_hexadecimal (n : ℕ) : (13 : UInt8) ∉ hexadecimal n := by
  unfold hexadecimal
  split_ifs with hz
  · decide
  · intro h
    obtain ⟨d, hd, heq⟩ := mem_map.1 (mem_reverse.1 h)
    have hlt := Nat.digits_lt_base (by decide) hd
    have hv := hexDigitValue_hexDigit hlt
    have hn : hexDigitValue 13 = none := by decide
    rw [heq, hn] at hv
    cases hv

def crlf : Bytes := [13, 10]

def chunk (data : Bytes) : Bytes := hexadecimal data.length ++ (crlf ++ (data ++ crlf))

def lastChunk : Bytes := 48 :: (crlf ++ crlf)

/-- What a reader of a body has understood: the data, and what follows the end once the end has
been seen. -/
structure Decoded where
  data : Bytes
  rest : Option Bytes
  deriving DecidableEq

def sizeLine (input : Bytes) : Option (ℕ × Bytes) :=
  (splitOnce crlf input).bind fun split => (hexValue split.1).map fun size => (size, split.2)

def decodeWith : ℕ → Bytes → Decoded
  | 0, _ => ⟨[], none⟩
  | rounds + 1, input =>
    match sizeLine input with
    | none => ⟨[], none⟩
    | some (0, rest) => ⟨[], rest.dropPrefix? crlf⟩
    | some (size + 1, rest) =>
      match (rest.drop (size + 1)).dropPrefix? crlf with
      | none => ⟨rest.take (size + 1), none⟩
      | some rest' =>
        let later := decodeWith rounds rest'
        ⟨rest.take (size + 1) ++ later.data, later.rest⟩

/-- Every round uses up some of the input. -/
def decode (input : Bytes) : Decoded := decodeWith input.length input

theorem chunk_nil : chunk [] = lastChunk := rfl

theorem length_of_sizeLine
    (h : sizeLine input = some (size, rest)) : rest.length < input.length := by
  obtain ⟨split, hs, hv⟩ := Option.bind_eq_some_iff.1 h
  obtain ⟨value, -, heq⟩ := Option.map_eq_some_iff.1 hv
  obtain ⟨-, rfl⟩ := Prod.mk.inj heq
  rw [splitOnce_eq_some hs]
  simp only [length_append, crlf, length_cons]
  omega

theorem decodeWith_enough (ho : input.length ≤ rounds)
    (hm : input.length ≤ more) : decodeWith rounds input = decodeWith more input := by
  induction rounds generalizing more input with
  | zero =>
    obtain rfl := length_eq_zero_iff.1 (Nat.le_zero.1 ho)
    cases more with
    | zero | succ => rfl
  | succ rounds ih =>
    cases more with
    | zero =>
      obtain rfl := length_eq_zero_iff.1 (Nat.le_zero.1 hm)
      rfl
    | succ more =>
      rw [decodeWith, decodeWith]
      cases hi : sizeLine input with
      | none => rfl
      | some line =>
        obtain ⟨size, rest⟩ := line
        have hh := length_of_sizeLine hi
        cases size with
        | zero => rfl
        | succ size =>
          cases hr : (rest.drop (size + 1)).dropPrefix? crlf with
          | none => simp only [hr]
          | some rest' =>
            have hl := congrArg List.length (dropPrefix?_eq_some hr)
            simp only [length_drop, length_append] at hl
            have hf : rest'.length ≤ rounds := by omega
            have hs : rest'.length ≤ more := by omega
            simp only [hr, ih hf hs]

theorem sizeLine_append (n : ℕ) (rest : Bytes) :
    sizeLine (hexadecimal n ++ (crlf ++ rest)) = some (n, rest) := by
  have hs : splitOnce crlf (hexadecimal n ++ (crlf ++ rest)) = some (hexadecimal n, rest) :=
    splitOnce_append (return_notMem_hexadecimal n) rest
  rw [sizeLine, hs, Option.bind_some, hexValue_hexadecimal]
  rfl

theorem decode_chunk_append (hd : data ≠ []) (rest : Bytes) :
    decode (chunk data ++ rest) = ⟨data ++ (decode rest).data, (decode rest).rest⟩ := by
  obtain ⟨size, hs⟩ : ∃ size, data.length = size + 1 :=
    Nat.exists_eq_succ_of_ne_zero fun h => hd (length_eq_zero_iff.1 h)
  have hi : chunk data ++ rest = hexadecimal (size + 1) ++ (crlf ++ (data ++ (crlf ++ rest))) := by
    rw [chunk, hs]
    simp only [append_assoc]
  have hl : sizeLine (chunk data ++ rest) = some (size + 1, data ++ (crlf ++ rest)) := by
    rw [hi, sizeLine_append]
  have hn : rest.length < (chunk data ++ rest).length := by
    simp only [chunk, length_append, crlf, length_cons]
    omega
  obtain ⟨rounds, ho⟩ : ∃ rounds, (chunk data ++ rest).length = rounds + 1 :=
    Nat.exists_eq_succ_of_ne_zero (by omega)
  rw [decode, ho, decodeWith, hl]
  have ht : (data ++ (crlf ++ rest)).take (size + 1) = data := by
    rw [← hs, take_left]
  have hr : ((data ++ (crlf ++ rest)).drop (size + 1)).dropPrefix? crlf = some rest := by
    rw [← hs, drop_left, dropPrefix?_append]
  have he : decodeWith rounds rest = decode rest := decodeWith_enough (by omega) le_rfl
  simp only [hr, ht, he]

theorem decode_lastChunk_append (rest : Bytes) : decode (lastChunk ++ rest) = ⟨[], some rest⟩ := by
  have hl : sizeLine (lastChunk ++ rest) = some (0, crlf ++ rest) := sizeLine_append 0 _
  obtain ⟨rounds, hr⟩ : ∃ rounds, (lastChunk ++ rest).length = rounds + 1 := ⟨_, length_cons⟩
  rw [decode, hr, decodeWith, hl]
  simp only [dropPrefix?_append]

theorem decode_chunks_append {pieces : List Bytes} (hp : ∀ data ∈ pieces, data ≠ [])
    (rest : Bytes) : decode (pieces.flatMap chunk ++ rest) =
      ⟨pieces.flatten ++ (decode rest).data, (decode rest).rest⟩ := by
  induction pieces with
  | nil => rfl
  | cons data pieces ih =>
    obtain ⟨hd, hr⟩ := forall_mem_cons.1 hp
    rw [flatMap_cons, append_assoc, decode_chunk_append hd, ih hr, flatten_cons, append_assoc]

theorem decode_chunks_nil {pieces : List Bytes} (hp : ∀ data ∈ pieces, data ≠ [])
    (rest : Bytes) : decode (pieces.flatMap chunk ++ (chunk [] ++ rest)) =
      ⟨pieces.flatten, some rest⟩ := by
  rw [decode_chunks_append hp, chunk_nil, decode_lastChunk_append, append_nil]

theorem decode_of_nil_mem {pieces : List Bytes} (hn : [] ∈ pieces) (rest : Bytes) :
    ∃ before after, pieces = before ++ [] :: after ∧
      decode (pieces.flatMap chunk ++ rest) =
        ⟨before.flatten, some (after.flatMap chunk ++ rest)⟩ := by
  obtain ⟨before, after, rfl, hb⟩ := eq_append_cons_of_mem hn
  refine ⟨before, after, rfl, ?_⟩
  rw [flatMap_append, flatMap_cons, append_assoc, append_assoc]
  refine decode_chunks_nil (fun data hd heq => ?_) _
  exact hb (heq ▸ hd)

theorem sizeLine_cut (hr : rest ≠ [])
    (hc : hexadecimal n ++ crlf = taken ++ rest) : sizeLine taken = none := by
  cases hs : splitOnce crlf taken with
  | none => rw [sizeLine, hs, Option.bind_none]
  | some split =>
    obtain ⟨front, back⟩ := split
    rw [splitOnce_eq_some hs, append_assoc, append_assoc] at hc
    exfalso
    rcases append_eq_append_iff.1 hc with ⟨more, rfl, hm⟩ | ⟨more, hm, ht⟩
    · have hl := congrArg List.length hm
      have hp := length_pos_of_ne_nil hr
      simp only [crlf, length_append, length_cons, length_nil] at hl
      omega
    · cases more with
      | nil =>
        have hl := congrArg List.length ht
        have hp := length_pos_of_ne_nil hr
        simp only [crlf, length_append, length_cons, length_nil] at hl
        omega
      | cons byte more =>
        have hb := (List.cons.inj ht).1.symm
        refine return_notMem_hexadecimal n ?_
        rw [hm, hb]
        exact mem_append_right _ mem_cons_self

theorem dropPrefix?_cut (hr : rest ≠ []) (hc : crlf = taken ++ rest) :
    taken.dropPrefix? crlf = none := by
  cases hd : taken.dropPrefix? crlf with
  | none => rfl
  | some more =>
    have hl := congrArg List.length hc
    have hp := length_pos_of_ne_nil hr
    rw [dropPrefix?_eq_some hd] at hl
    simp only [length_append] at hl
    omega

theorem decode_cut (hr : rest ≠ [])
    (hc : chunk data = taken ++ rest) :
    (decode taken).rest = none ∧ (decode taken).data <+: data := by
  cases hl : sizeLine taken with
  | none =>
    have hn : decode taken = ⟨[], none⟩ := by
      rw [decode]
      cases taken.length with
      | zero => rfl
      | succ rounds => rw [decodeWith, hl]
    rw [hn]
    exact ⟨rfl, nil_prefix⟩
  | some line =>
    obtain ⟨after, rfl, ha⟩ : ∃ after, taken = hexadecimal data.length ++ (crlf ++ after) ∧
        data ++ crlf = after ++ rest := by
      rw [chunk, ← append_assoc] at hc
      rcases append_eq_append_iff.1 hc with ⟨after, ha, hr'⟩ | ⟨after, ha, hr'⟩
      · exact ⟨after, by rw [ha, append_assoc], hr'⟩
      · cases after with
        | nil =>
          rw [append_nil] at ha
          exact ⟨[], by rw [← ha, append_nil], hr'.symm⟩
        | cons byte after =>
          rw [sizeLine_cut (cons_ne_nil byte after) ha] at hl
          cases hl
    rw [decode]
    cases he : (hexadecimal data.length ++ (crlf ++ after)).length with
    | zero => exact ⟨rfl, nil_prefix⟩
    | succ rounds =>
      rw [decodeWith, sizeLine_append]
      obtain ⟨hd, ht⟩ : ((after.drop data.length).dropPrefix? crlf = none) ∧
          after.take data.length <+: data := by
        rcases append_eq_append_iff.1 ha with ⟨tail, rfl, hta⟩ | ⟨tail, rfl, -⟩
        · rw [drop_left, take_left]
          exact ⟨dropPrefix?_cut hr hta, prefix_refl _⟩
        · have hs : after.length ≤ (after ++ tail).length := by
            rw [length_append]
            exact Nat.le_add_right _ _
          rw [drop_of_length_le hs, take_of_length_le hs]
          exact ⟨rfl, prefix_append _ _⟩
      cases hi : data.length with
      | zero =>
        rw [hi, drop_zero] at hd
        exact ⟨hd, nil_prefix⟩
      | succ size =>
        rw [hi] at hd ht
        simp only [hd]
        exact ⟨trivial, ht⟩

end ChunkedCoding
