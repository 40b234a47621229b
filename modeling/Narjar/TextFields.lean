import Mathlib.Data.Nat.Digits.Defs
import Mathlib.Data.Nat.Digits.Lemmas
import Narjar.ByteCodecs

/-!
# Texts made of lines and fields

UTF-8, decimal numbers, lines and separators in byte strings, with the lemmas that read back
what was put together.
-/
namespace TextFields

open ByteCodecs List

/-- What the decoder expects next: a character, or the rest of one. -/
inductive Utf8State where
  | boundary
  | one
  | two
  | three
  | afterE0
  | afterED
  | afterF0
  | afterF4
  deriving DecidableEq

namespace Utf8State

def lead (byte : UInt8) : Option Utf8State :=
  if byte < 0x80 then some boundary
  else if 0xC2 ≤ byte ∧ byte ≤ 0xDF then some one
  else if byte = 0xE0 then some afterE0
  else if byte = 0xED then some afterED
  else if 0xE1 ≤ byte ∧ byte ≤ 0xEF then some two
  else if byte = 0xF0 then some afterF0
  else if 0xF1 ≤ byte ∧ byte ≤ 0xF3 then some three
  else if byte = 0xF4 then some afterF4
  else none

def continuation (low high byte : UInt8) (next : Utf8State) : Option Utf8State :=
  if low ≤ byte ∧ byte ≤ high then some next else none

def step : Utf8State → UInt8 → Option Utf8State
  | boundary, byte => lead byte
  | one, byte => continuation 0x80 0xBF byte boundary
  | two, byte => continuation 0x80 0xBF byte one
  | three, byte => continuation 0x80 0xBF byte two
  | afterE0, byte => continuation 0xA0 0xBF byte one
  | afterED, byte => continuation 0x80 0x9F byte one
  | afterF0, byte => continuation 0x90 0xBF byte two
  | afterF4, byte => continuation 0x80 0x8F byte two

end Utf8State

def utf8Run (state : Utf8State) (bytes : Bytes) : Option Utf8State :=
  bytes.foldlM Utf8State.step state

def validUtf8 (bytes : Bytes) : Bool := utf8Run .boundary bytes == some .boundary

theorem utf8Run_append (state : Utf8State) (front back : Bytes) :
    utf8Run state (front ++ back) = (utf8Run state front).bind fun next => utf8Run next back := by
  rw [utf8Run, foldlM_append]
  rfl

variable {limit n d total : ℕ} {bytes text : Bytes} {byte : UInt8}

theorem step_ascii (h : byte < 0x80) (state : Utf8State) :
    state.step byte = if state = .boundary then some .boundary else none := by
  have hc : ∀ low high next, 0x80 ≤ low → Utf8State.continuation low high byte next = none := by
    intro low high next hl
    rw [Utf8State.continuation, if_neg]
    intro hb
    exact absurd (UInt8.le_trans hl hb.1) (UInt8.not_le.2 h)
  cases state with
  | boundary => simp [Utf8State.step, Utf8State.lead, h]
  | one | two | three | afterE0 | afterED | afterF0 | afterF4 =>
    exact hc _ _ _ (by decide)

theorem validUtf8_iff : validUtf8 bytes = true ↔ utf8Run .boundary bytes = some .boundary := by
  rw [validUtf8, beq_iff_eq]

theorem validUtf8_cut (h : byte < 0x80) (front back : Bytes) :
    validUtf8 (front ++ byte :: back) = (validUtf8 front && validUtf8 back) := by
  rw [Bool.eq_iff_iff, Bool.and_eq_true, validUtf8_iff, validUtf8_iff, validUtf8_iff,
    utf8Run_append]
  have hc : ∀ state, utf8Run state (byte :: back) =
      if state = .boundary then utf8Run .boundary back else none := by
    intro state
    rw [utf8Run, foldlM_cons, step_ascii h]
    by_cases hs : state = .boundary
    · rw [if_pos hs, if_pos hs]
      rfl
    · rw [if_neg hs, if_neg hs]
      rfl
  cases hf : utf8Run .boundary front with
  | none => simp
  | some state =>
    rw [Option.bind_some, hc]
    by_cases hs : state = .boundary
    · simp [hs]
    · simp [hs]

theorem validUtf8_ascii (h : ∀ byte ∈ bytes, byte < 0x80) : validUtf8 bytes = true := by
  induction bytes with
  | nil => rfl
  | cons byte bytes ih =>
    have hc := validUtf8_cut (h byte mem_cons_self) [] bytes
    rw [nil_append] at hc
    rw [hc, ih fun other ho => h other (mem_cons_of_mem _ ho)]
    rfl

def decimal (n : ℕ) : Bytes :=
  if n = 0 then [48] else ((Nat.digits 10 n).map fun d => UInt8.ofNat (48 + d)).reverse

def digitValue (byte : UInt8) : Option ℕ :=
  if 48 ≤ byte ∧ byte ≤ 57 then some (byte.toNat - 48) else none

/-- The value of digits, most significant first, as long as it stays within the limit. -/
def digitsValue (limit : ℕ) : ℕ → Bytes → Option ℕ
  | total, [] => some total
  | total, byte :: bytes => do
    let digit ← digitValue byte
    let total := total * 10 + digit
    if total ≤ limit then digitsValue limit total bytes else none

/-- A number with at least one digit and perhaps a plus sign, no larger than the limit. -/
def parseUnsigned (limit : ℕ) (bytes : Bytes) : Option ℕ :=
  let digits := (bytes.dropPrefix? [43]).getD bytes
  if digits = [] then none else digitsValue limit 0 digits

theorem digit_byte (h : d < 10) :
    48 ≤ UInt8.ofNat (48 + d) ∧ UInt8.ofNat (48 + d) ≤ 57 ∧
      (UInt8.ofNat (48 + d)).toNat = 48 + d := by
  have ht : (UInt8.ofNat (48 + d)).toNat = 48 + d := by
    rw [UInt8.toNat_ofNat']
    omega
  refine ⟨?_, ?_, ht⟩
  · rw [UInt8.le_iff_toNat_le, ht]
    exact Nat.le_add_right _ _
  · rw [UInt8.le_iff_toNat_le, ht]
    change 48 + d ≤ 57
    omega

theorem digitValue_ofNat (h : d < 10) : digitValue (UInt8.ofNat (48 + d)) = some d := by
  obtain ⟨hl, hh, ht⟩ := digit_byte h
  rw [digitValue, if_pos ⟨hl, hh⟩, ht, Nat.add_sub_cancel_left]

theorem digitsValue_append :
    digitsValue limit total (front ++ back) =
      (digitsValue limit total front).bind fun total => digitsValue limit total back := by
  induction front generalizing total with
  | nil => rfl
  | cons byte front ih =>
    simp only [cons_append, digitsValue]
    cases digitValue byte with
    | none => rfl
    | some digit =>
      simp only [Option.bind_eq_bind, Option.bind_some]
      by_cases hl : total * 10 + digit ≤ limit
      · rw [if_pos hl, if_pos hl, ih]
      · rw [if_neg hl, if_neg hl]
        rfl

def isDigit (byte : UInt8) : Bool := 48 ≤ byte ∧ byte ≤ 57

/-- The number that digits stand for after a number that was read before them. -/
def digitsNumber (total : ℕ) (digits : Bytes) : ℕ :=
  digits.foldl (fun total byte => total * 10 + (byte.toNat - 48)) total

theorem le_digitsNumber (total : ℕ) (digits : Bytes) : total ≤ digitsNumber total digits := by
  induction digits generalizing total with
  | nil => exact le_rfl
  | cons byte digits ih =>
    refine le_trans ?_ (ih (total * 10 + (byte.toNat - 48)))
    omega

theorem digitsValue_eq_some_iff (ht : total ≤ limit) :
    digitsValue limit total digits = some n ↔
      (∀ byte ∈ digits, isDigit byte) ∧ digitsNumber total digits = n ∧ n ≤ limit := by
  induction digits generalizing total with
  | nil =>
    constructor
    · intro h
      cases h
      exact ⟨fun _ h => absurd h not_mem_nil, rfl, ht⟩
    · rintro ⟨-, rfl, -⟩
      rfl
  | cons byte digits ih =>
    rw [digitsValue, digitValue]
    by_cases hd : 48 ≤ byte ∧ byte ≤ 57
    · rw [if_pos hd, Option.bind_eq_bind, Option.bind_some, forall_mem_cons]
      have hs : digitsNumber total (byte :: digits) =
          digitsNumber (total * 10 + (byte.toNat - 48)) digits := rfl
      rw [hs]
      have hb : isDigit byte = true := decide_eq_true hd
      by_cases hl : total * 10 + (byte.toNat - 48) ≤ limit
      · rw [if_pos hl, ih hl, hb]
        simp
      · rw [if_neg hl]
        have hr := le_digitsNumber (total * 10 + (byte.toNat - 48)) digits
        constructor
        · intro h
          cases h
        · rintro ⟨-, rfl, hle⟩
          exact absurd (hr.trans hle) hl
    · rw [if_neg hd, Option.bind_eq_bind, Option.bind_none]
      constructor
      · intro h
        cases h
      · rintro ⟨ha, -⟩
        exact absurd (of_decide_eq_true (ha byte mem_cons_self)) hd

/-- A number that is written with digits only and stays within the limit. -/
def IsNumber (limit : ℕ) (text : Bytes) (n : ℕ) : Prop :=
  text ≠ [] ∧ (∀ byte ∈ text, isDigit byte) ∧ digitsNumber 0 text = n ∧ n ≤ limit

theorem IsNumber.notMem (h : IsNumber limit text n) (hb : isDigit byte = false) : byte ∉ text := by
  intro hm
  rw [h.2.1 byte hm] at hb
  cases hb

theorem digitsValue_iff_isNumber :
    (if text = [] then none else digitsValue limit 0 text) = some n ↔ IsNumber limit text n := by
  by_cases hn : text = []
  · rw [if_pos hn]
    simp [IsNumber, hn]
  · rw [if_neg hn, digitsValue_eq_some_iff (Nat.zero_le limit)]
    simp [IsNumber, hn]

theorem parseUnsigned_eq_some_iff (hp : bytes.head? ≠ some 43) :
    parseUnsigned limit bytes = some n ↔ IsNumber limit bytes n := by
  have hd : (bytes.dropPrefix? [43]).getD bytes = bytes := by
    cases hr : bytes.dropPrefix? [43] with
    | none => rfl
    | some rest =>
      obtain ⟨front, hf, heq⟩ := List.dropPrefix?_eq_some_iff.1 hr
      rw [eq_of_beq heq] at hf
      rw [hf] at hp
      exact absurd rfl hp
  simp only [parseUnsigned, hd]
  exact digitsValue_iff_isNumber

theorem parseUnsigned_iff :
    parseUnsigned limit bytes = some n ↔
      IsNumber limit bytes n ∨ ∃ digits, bytes = 43 :: digits ∧ IsNumber limit digits n := by
  cases bytes with
  | nil =>
    simp [parseUnsigned, IsNumber, List.dropPrefix?]
  | cons byte bytes =>
    by_cases hp : byte = 43
    · obtain rfl := hp
      have hd : (43 :: bytes).dropPrefix? [43] = some bytes :=
        List.dropPrefix?_eq_some_iff.2 ⟨[43], rfl, beq_self_eq_true _⟩
      have hs : ¬IsNumber limit (43 :: bytes) n := fun h => h.notMem rfl mem_cons_self
      simp only [parseUnsigned, hd, Option.getD_some, digitsValue_iff_isNumber, hs, false_or,
        List.cons.injEq, true_and, exists_eq_left']
    · have hh : (byte :: bytes).head? ≠ some 43 := fun h => hp (Option.some.inj h)
      rw [parseUnsigned_eq_some_iff hh]
      simp [hp]

/-- The digits of a number that was read are all there is to it, unless it has a sign. -/
theorem digits_iff_of_parseUnsigned (h : parseUnsigned limit bytes = some n) :
    (∀ byte ∈ bytes, isDigit byte) ↔ bytes.head? ≠ some 43 := by
  constructor
  · intro ha hp
    have hd := ha 43 (mem_of_mem_head? hp)
    cases hd
  · intro hp
    exact ((parseUnsigned_eq_some_iff hp).1 h).2.1

theorem decimal_digit (h : byte ∈ decimal n) : 48 ≤ byte ∧ byte ≤ 57 := by
  unfold decimal at h
  split_ifs at h
  · rw [mem_singleton.1 h]
    decide
  · obtain ⟨d, hd, rfl⟩ := mem_map.1 (mem_reverse.1 h)
    obtain ⟨hl, hh, -⟩ := digit_byte (Nat.digits_lt_base (by decide) hd)
    exact ⟨hl, hh⟩

theorem decimal_ne_nil (n : ℕ) : decimal n ≠ [] := by
  unfold decimal
  split_ifs with hz
  · exact cons_ne_nil _ _
  · simp only [ne_eq, reverse_eq_nil_iff, map_eq_nil_iff, Nat.digits_eq_nil_iff_eq_zero]
    exact hz

theorem digitsValue_digits (hi : ∀ d ∈ ds, d < 10) (h : Nat.ofDigits 10 ds ≤ limit) :
    digitsValue limit 0 (ds.map fun d => UInt8.ofNat (48 + d)).reverse =
      some (Nat.ofDigits 10 ds) := by
  induction ds with
  | nil => rfl
  | cons d ds ih =>
    have hd := hi d mem_cons_self
    have hv : Nat.ofDigits 10 (d :: ds) = Nat.ofDigits 10 ds * 10 + d := by
      rw [Nat.ofDigits_cons]
      omega
    rw [hv] at h ⊢
    rw [map_cons, reverse_cons, digitsValue_append,
      ih (fun d' hd' => hi d' (mem_cons_of_mem _ hd')) (by omega)]
    simp only [Option.bind_some, digitsValue, digitValue_ofNat hd, Option.bind_eq_bind]
    rw [if_pos h]

theorem parseUnsigned_decimal (h : n ≤ limit) : parseUnsigned limit (decimal n) = some n := by
  have hp : (decimal n).dropPrefix? [43] = none := by
    cases hr : (decimal n).dropPrefix? [43] with
    | none => rfl
    | some rest =>
      obtain ⟨sign, hs, heq⟩ := List.dropPrefix?_eq_some_iff.1 hr
      rw [eq_of_beq heq] at hs
      have hm : (43 : UInt8) ∈ decimal n := by
        rw [hs]
        exact mem_cons_self
      exact absurd (decimal_digit hm) (by decide)
  simp only [parseUnsigned, hp, Option.getD_none, if_neg (decimal_ne_nil n)]
  unfold decimal
  split_ifs with hz
  · simp [digitsValue, digitValue, hz]
  · have hv := Nat.ofDigits_digits 10 n
    rw [digitsValue_digits (fun d hd => Nat.digits_lt_base (by decide) hd) (by rwa [hv]), hv]

theorem decimal_injective : Function.Injective decimal := by
  intro m n h
  have hm := parseUnsigned_decimal (Nat.le_max_left m n)
  have hn := parseUnsigned_decimal (Nat.le_max_right m n)
  rw [h, hn] at hm
  exact (Option.some.inj hm).symm

section Separators

variable {α : Type} [DecidableEq α]

/-- The text before and after the first occurrence of the pattern. -/
def splitOnce (pattern : List α) : List α → Option (List α × List α)
  | [] => if pattern = [] then some ([], []) else none
  | x :: xs =>
    match (x :: xs).dropPrefix? pattern with
    | some rest => some ([], rest)
    | none => (splitOnce pattern xs).map fun p => (x :: p.1, p.2)

theorem dropPrefix?_append (pattern rest : List α) :
    (pattern ++ rest).dropPrefix? pattern = some rest :=
  List.dropPrefix?_eq_some_iff.2 ⟨pattern, rfl, beq_self_eq_true _⟩

variable {pattern text front back : List α} {c separator : α} {lines : List (List α)}

theorem dropPrefix?_eq_some (h : text.dropPrefix? pattern = some rest) :
    text = pattern ++ rest := by
  obtain ⟨front, hf, heq⟩ := List.dropPrefix?_eq_some_iff.1 h
  rw [hf, eq_of_beq heq]

theorem dropSuffix?_append (front pattern : List α) :
    (front ++ pattern).dropSuffix? pattern = some front :=
  List.dropSuffix?_eq_some_iff.2 ⟨pattern, rfl, beq_self_eq_true _⟩

theorem dropSuffix?_eq_some (h : text.dropSuffix? pattern = some front) :
    text = front ++ pattern := by
  obtain ⟨back, hb, heq⟩ := List.dropSuffix?_eq_some_iff.1 h
  rw [hb, eq_of_beq heq]

theorem splitOnce_eq_some (h : splitOnce pattern text = some (front, back)) :
    text = front ++ (pattern ++ back) := by
  induction text generalizing front back with
  | nil =>
    unfold splitOnce at h
    split_ifs at h with ha
    obtain ⟨rfl, rfl⟩ := Prod.mk.inj (Option.some.inj h)
    rw [ha]
    rfl
  | cons x xs ih =>
    rw [splitOnce] at h
    cases hd : (x :: xs).dropPrefix? pattern with
    | some rest =>
      rw [hd] at h
      obtain ⟨rfl, rfl⟩ := Prod.mk.inj (Option.some.inj h)
      rw [dropPrefix?_eq_some hd]
      rfl
    | none =>
      rw [hd] at h
      obtain ⟨p, hp, hc⟩ := Option.map_eq_some_iff.1 h
      obtain ⟨rfl, rfl⟩ := Prod.mk.inj hc
      rw [ih hp]
      rfl

theorem splitOnce_append (h : c ∉ front) (back : List α) :
    splitOnce (c :: pattern) (front ++ (c :: pattern ++ back)) = some (front, back) := by
  induction front with
  | nil =>
    rw [nil_append, cons_append, splitOnce, ← cons_append, dropPrefix?_append]
  | cons x front ih =>
    have hx : c ≠ x := fun heq => h (heq ▸ mem_cons_self)
    have hd : (x :: (front ++ (c :: pattern ++ back))).dropPrefix? (c :: pattern) = none := by
      cases hd : (x :: (front ++ (c :: pattern ++ back))).dropPrefix? (c :: pattern) with
      | none => rfl
      | some rest => exact absurd (List.cons.inj (dropPrefix?_eq_some hd)).1.symm hx
    rw [cons_append, splitOnce, hd, ih fun hm => h (mem_cons_of_mem _ hm)]
    rfl

theorem splitOnce_eq_none (h : splitOnce pattern text = none) (front back : List α) :
    text ≠ front ++ (pattern ++ back) := by
  induction text generalizing front back with
  | nil =>
    intro ht
    have hp := (append_eq_nil_iff.1 (append_eq_nil_iff.1 ht.symm).2).1
    rw [splitOnce, if_pos hp] at h
    cases h
  | cons x xs ih =>
    intro ht
    rw [splitOnce] at h
    cases hd : (x :: xs).dropPrefix? pattern with
    | some rest =>
      rw [hd] at h
      cases h
    | none =>
      rw [hd] at h
      cases front with
      | nil =>
        rw [ht, nil_append, dropPrefix?_append] at hd
        cases hd
      | cons y front =>
        refine ih (Option.map_eq_none_iff.1 h) front back ?_
        exact (List.cons.inj ht).2

theorem splitOnce_first (h : splitOnce pattern text = some (front, back))
    (ht : text = front' ++ (pattern ++ back')) : front.length ≤ front'.length := by
  induction text generalizing front back front' with
  | nil =>
    have hf := congrArg List.length (splitOnce_eq_some h)
    rw [length_nil, length_append] at hf
    omega
  | cons x xs ih =>
    rw [splitOnce] at h
    cases hd : (x :: xs).dropPrefix? pattern with
    | some rest =>
      rw [hd] at h
      obtain ⟨rfl, -⟩ := Prod.mk.inj (Option.some.inj h)
      exact Nat.zero_le _
    | none =>
      rw [hd] at h
      obtain ⟨p, hp, hc⟩ := Option.map_eq_some_iff.1 h
      obtain ⟨rfl, -⟩ := Prod.mk.inj hc
      cases front' with
      | nil =>
        rw [ht, nil_append, dropPrefix?_append] at hd
        cases hd
      | cons y front' => exact Nat.succ_le_succ (ih hp (List.cons.inj ht).2)

theorem splitOnce_of_first
    (hf : ∀ front' back', front ++ (pattern ++ back) = front' ++ (pattern ++ back') →
      front.length ≤ front'.length) :
    splitOnce pattern (front ++ (pattern ++ back)) = some (front, back) := by
  cases hs : splitOnce pattern (front ++ (pattern ++ back)) with
  | none => exact absurd rfl (splitOnce_eq_none hs front back)
  | some found =>
    obtain ⟨front', back'⟩ := found
    have ht := splitOnce_eq_some hs
    have hl := Nat.le_antisymm (hf front' back' ht) (splitOnce_first hs rfl)
    obtain ⟨rfl, hr⟩ := append_inj ht hl
    rw [append_cancel_left hr]

theorem splitOnce_more (h : splitOnce pattern text = some (front, back)) (more : List α) :
    splitOnce pattern (text ++ more) = some (front, back ++ more) := by
  have he := splitOnce_eq_some h
  have hm : text ++ more = front ++ (pattern ++ (back ++ more)) := by
    rw [he, append_assoc, append_assoc]
  rw [hm]
  apply splitOnce_of_first
  intro front' back' heq
  by_contra hlt
  -- an earlier occurrence would lie within the text
  have hw : front'.length + pattern.length ≤ text.length := by
    rw [he, length_append, length_append]
    omega
  have hc : text = front' ++ (pattern ++ (back'.take (text.length - front'.length - pattern.length))) := by
    have ht := congrArg (List.take text.length) (hm.trans heq)
    rw [take_left, take_append, take_append, take_of_length_le (by omega),
      take_of_length_le (by omega)] at ht
    exact ht
  exact hlt (splitOnce_first h hc)

theorem splitOnce_drop
    (h : ∀ front back, text = front ++ (pattern ++ back) → start ≤ front.length) :
    splitOnce pattern text =
      (splitOnce pattern (text.drop start)).map fun p => (text.take start ++ p.1, p.2) := by
  cases hs : splitOnce pattern (text.drop start) with
  | none =>
    cases hw : splitOnce pattern text with
    | none => rfl
    | some found =>
      have ht := splitOnce_eq_some hw
      have ha := h _ _ ht
      have hd : text.drop start = found.1.drop start ++ (pattern ++ found.2) := by
        rw [ht, drop_append_of_le_length ha]
      exact absurd hd (splitOnce_eq_none hs _ _)
  | some found =>
    have hd := splitOnce_eq_some hs
    have ht : text = (text.take start ++ found.1) ++ (pattern ++ found.2) := by
      rw [append_assoc, ← hd, take_append_drop]
    rw [Option.map_some]
    conv_lhs => rw [ht]
    apply splitOnce_of_first
    intro front' back' heq
    have ha := h front' back' (ht.trans heq)
    have hl : text.drop start = front'.drop start ++ (pattern ++ back') := by
      rw [ht.trans heq, drop_append_of_le_length ha]
    have hf := splitOnce_first hs hl
    rw [length_append]
    rw [length_drop] at hf
    have hk := length_take_le start text
    omega

theorem splitOnce_skip (h : c ∉ front) (text : List α) :
    splitOnce (c :: pattern) (front ++ text) =
      (splitOnce (c :: pattern) text).map fun p => (front ++ p.1, p.2) := by
  have hf : ∀ front' back', front ++ text = front' ++ (c :: pattern ++ back') →
      front.length ≤ front'.length := by
    intro front' back' heq
    by_contra hlt
    have hg := congrArg (fun l => l[front'.length]?) heq
    rw [List.getElem?_append_left (by omega), List.getElem?_append_right le_rfl, Nat.sub_self] at hg
    exact h (mem_of_getElem? hg)
  rw [splitOnce_drop hf, drop_left, take_left]

/-- Lines, each ended by a pair of marks, are ended by the first pair that follows another. -/
theorem splitOnce_blankLine {d : α} (hcd : d ≠ c) (hne : lines ≠ [])
    (hn : ∀ line ∈ lines, line ≠ [] ∧ c ∉ line) (rest : List α) :
    ∃ front, splitOnce [c, d, c, d] (lines.flatMap (· ++ [c, d]) ++ ([c, d] ++ rest)) =
      some (front, rest) := by
  induction lines with
  | nil => exact absurd rfl hne
  | cons line lines ih =>
    obtain ⟨hl, hr⟩ := forall_mem_cons.1 hn
    rw [flatMap_cons, append_assoc, append_assoc, splitOnce_skip hl.2]
    cases lines with
    | nil =>
      have hh : splitOnce [c, d, c, d] ([c, d] ++ ([c, d] ++ rest)) = some ([], rest) := by
        have hd := dropPrefix?_append [c, d, c, d] rest
        simp only [cons_append, nil_append] at hd ⊢
        rw [splitOnce, hd]
      rw [flatMap_nil, nil_append, hh]
      exact ⟨_, rfl⟩
    | cons next lines =>
      obtain ⟨front, hf⟩ := ih (cons_ne_nil _ _) hr
      -- the next line begins with something else, so no pair follows this one
      obtain ⟨he, hm⟩ := hr next mem_cons_self
      obtain ⟨x, xs, rfl⟩ := exists_cons_of_ne_nil he
      have hx : x ≠ c := fun heq => hm (heq ▸ mem_cons_self)
      obtain ⟨tail, ht⟩ : ∃ tail, ((x :: xs) :: lines).flatMap (· ++ [c, d]) ++ ([c, d] ++ rest) =
          x :: tail := ⟨_, rfl⟩
      rw [ht] at hf ⊢
      have hi : (c :: d :: x :: tail).dropPrefix? [c, d, c, d] = none := by
        cases hd : (c :: d :: x :: tail).dropPrefix? [c, d, c, d] with
        | none => rfl
        | some found =>
          have heq := dropPrefix?_eq_some hd
          simp only [cons_append, List.cons.injEq] at heq
          exact absurd heq.2.2.1 hx
      have hs : (d :: x :: tail).dropPrefix? [c, d, c, d] = none := by
        cases hd : (d :: x :: tail).dropPrefix? [c, d, c, d] with
        | none => rfl
        | some found => exact absurd (List.cons.inj (dropPrefix?_eq_some hd)).1 hcd
      rw [cons_append, cons_append, nil_append, splitOnce, hi, splitOnce, hs,
        hf]
      exact ⟨_, rfl⟩

def unlines (separator : α) (lines : List (List α)) : List α := lines.flatMap (· ++ [separator])

omit [DecidableEq α] in
theorem unlines_eq (h : lines ≠ []) :
    unlines separator lines = [separator].intercalate lines ++ [separator] := by
  induction lines with
  | nil => exact absurd rfl h
  | cons line lines ih =>
    rw [unlines, flatMap_cons]
    cases lines with
    | nil => simp [List.intercalate]
    | cons next lines =>
      have hr := ih (cons_ne_nil _ _)
      rw [unlines] at hr
      rw [hr]
      simp [List.intercalate]

theorem splitOn_unlines (hne : lines ≠ []) (h : ∀ line ∈ lines, separator ∉ line) :
    ((unlines separator lines).dropSuffix? [separator]).map (List.splitOn separator) =
      some lines := by
  rw [unlines_eq hne, dropSuffix?_append, Option.map_some, splitOn_intercalate _ h hne]

end Separators

def lowercase (byte : UInt8) : UInt8 := if 65 ≤ byte ∧ byte ≤ 90 then byte + 32 else byte

def equalsIgnoringCase (left right : Bytes) : Bool := left.map lowercase = right.map lowercase

/-- The white space of Unicode in UTF-8. -/
def whitespace : List Bytes :=
  [[0x09], [0x0A], [0x0B], [0x0C], [0x0D], [0x20], [0xC2, 0x85], [0xC2, 0xA0], [0xE1, 0x9A, 0x80],
    [0xE2, 0x80, 0x80], [0xE2, 0x80, 0x81], [0xE2, 0x80, 0x82], [0xE2, 0x80, 0x83],
    [0xE2, 0x80, 0x84], [0xE2, 0x80, 0x85], [0xE2, 0x80, 0x86], [0xE2, 0x80, 0x87],
    [0xE2, 0x80, 0x88], [0xE2, 0x80, 0x89], [0xE2, 0x80, 0x8A], [0xE2, 0x80, 0xA8],
    [0xE2, 0x80, 0xA9], [0xE2, 0x80, 0xAF], [0xE2, 0x81, 0x9F], [0xE3, 0x80, 0x80]]

/-- Every round removes at least one byte. -/
def dropPatterns (patterns : List Bytes) : ℕ → Bytes → Bytes
  | 0, text => text
  | rounds + 1, text =>
    match patterns.findSome? fun pattern => text.dropPrefix? pattern with
    | none => text
    | some rest => dropPatterns patterns rounds rest

def trim (text : Bytes) : Bytes :=
  let front := dropPatterns whitespace text.length text
  (dropPatterns (whitespace.map List.reverse) front.length front.reverse).reverse

end TextFields
