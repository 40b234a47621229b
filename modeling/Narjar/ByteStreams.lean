import Narjar.FaultyPrograms

/-!
# Sources and sinks of bytes

A source answers one read after the other with some bytes, an interruption or an error. A sink
accepts some of the bytes of each write. Nothing is assumed about the sizes.
-/
namespace ByteStreams

open FaultyPrograms List

variable {α ε : Type}

/-- How many bytes one call moves at most, or why it moves none. -/
inductive Acceptance (ε : Type) where
  | upTo (count : ℕ)
  | interrupted
  | failed (error : ε)
  deriving DecidableEq

inductive Answer (α ε : Type) where
  | bytes (bytes : List α)
  | interrupted
  | failed (error : ε)
  deriving DecidableEq

/-- The bytes a source has, and how it will answer the next reads. After the last answer it fills
every buffer. It is at its end when it has no bytes left, and not before. -/
structure Source (α ε : Type) where
  data : List α
  answers : List (Acceptance ε)
  deriving DecidableEq

def read (capacity : ℕ) (source : Source α ε) : Answer α ε × Source α ε :=
  match source.answers with
  | [] => (.bytes (source.data.take capacity), ⟨source.data.drop capacity, []⟩)
  | .upTo count :: answers =>
    (.bytes (source.data.take (min capacity (max count 1))),
      ⟨source.data.drop (min capacity (max count 1)), answers⟩)
  | .interrupted :: answers => (.interrupted, ⟨source.data, answers⟩)
  | .failed error :: answers => (.failed error, ⟨source.data, answers⟩)

inductive ReadStep (capacity : ℕ) (source : Source α ε) : Answer α ε × Source α ε → Prop where
  | bytes {bytes rest : List α} (hdata : source.data = bytes ++ rest)
      (hroom : bytes.length ≤ capacity) (hend : bytes = [] → source.data = [] ∨ capacity = 0) :
      ReadStep capacity source (.bytes bytes, ⟨rest, source.answers.tail⟩)
  | interrupted {answers : List (Acceptance ε)} (hanswers : source.answers = .interrupted :: answers) :
      ReadStep capacity source (.interrupted, ⟨source.data, answers⟩)
  | failed {error : ε} {answers : List (Acceptance ε)}
      (hanswers : source.answers = .failed error :: answers) :
      ReadStep capacity source (.failed error, ⟨source.data, answers⟩)

theorem read_step (capacity : ℕ) (source : Source α ε) :
    ReadStep capacity source (read capacity source) := by
  obtain ⟨data, answers⟩ := source
  have ht : ∀ count, min capacity count ≤ capacity → 0 < count →
      ReadStep capacity ⟨data, answers⟩ (.bytes (data.take (min capacity count)),
        ⟨data.drop (min capacity count), answers.tail⟩) := by
    intro count hle hp
    refine .bytes (take_append_drop _ _).symm (Nat.le_trans (length_take_le _ _) hle) ?_
    intro hn
    rcases take_eq_nil_iff.1 hn with hz | hd
    · exact .inr (by omega)
    · exact .inl hd
  cases answers with
  | nil =>
    have ha := ht (capacity + 1) (by omega) (by omega)
    rw [Nat.min_eq_left (Nat.le_succ capacity)] at ha
    exact ha
  | cons answer answers =>
    cases answer with
    | upTo count => exact ht (max count 1) (by omega) (by omega)
    | interrupted => exact .interrupted rfl
    | failed error => exact .failed rfl

def readUninterrupted (capacity : ℕ) (data : List α) :
    List (Acceptance ε) → Except ε (List α) × Source α ε
  | [] => (.ok (data.take capacity), ⟨data.drop capacity, []⟩)
  | .upTo count :: answers =>
    (.ok (data.take (min capacity (max count 1))), ⟨data.drop (min capacity (max count 1)), answers⟩)
  | .interrupted :: answers => readUninterrupted capacity data answers
  | .failed error :: answers => (.error error, ⟨data, answers⟩)

theorem readUninterrupted_ok {capacity : ℕ} {data bytes : List α} {answers : List (Acceptance ε)}
    {rest : Source α ε} (h : readUninterrupted capacity data answers = (.ok bytes, rest)) :
    data = bytes ++ rest.data ∧ bytes.length ≤ capacity ∧
      (bytes = [] → data = [] ∨ capacity = 0) := by
  have ht : ∀ source : Source α ε, ∀ answered, read capacity source = (.bytes bytes, answered) →
      source.data = bytes ++ answered.data ∧ bytes.length ≤ capacity ∧
        (bytes = [] → source.data = [] ∨ capacity = 0) := by
    intro source answered hr
    have hs := read_step capacity source
    rw [hr] at hs
    cases hs with
    | bytes hd ho he => exact ⟨hd, ho, he⟩
  induction answers with
  | nil =>
    cases h
    exact ht ⟨data, []⟩ _ rfl
  | cons answer answers ih =>
    cases answer with
    | upTo count =>
      cases h
      exact ht ⟨data, .upTo count :: answers⟩ _ rfl
    | interrupted => exact ih h
    | failed error => cases h

/-- The bytes that the answers to successive reads supply. An answer without bytes is the end, and
so is the end of the answers. -/
def supplied : List (Answer α ε) → List α
  | [] => []
  | .bytes [] :: _ => []
  | .bytes (byte :: bytes) :: answers => byte :: bytes ++ supplied answers
  | .interrupted :: answers => supplied answers
  | .failed _ :: _ => []

/-- Whether the reads come to the end, and not to a failure. -/
def ends : List (Answer α ε) → Bool
  | [] => true
  | .bytes [] :: _ => true
  | .bytes (_ :: _) :: answers => ends answers
  | .interrupted :: answers => ends answers
  | .failed _ :: _ => false

/-- The answers of a source that is read up to a limit. At the limit it is not read any more. -/
def limitedReads (capacity : ℕ) : ℕ → ℕ → Source α ε → List (Answer α ε)
  | 0, _, _ => []
  | _ + 1, 0, _ => []
  | rounds + 1, limit + 1, source =>
    match read (min capacity (limit + 1)) source with
    | (.bytes bytes, source) =>
      .bytes bytes :: limitedReads capacity rounds (limit + 1 - bytes.length) source
    | (.interrupted, source) => .interrupted :: limitedReads capacity rounds (limit + 1) source
    | (.failed error, source) => .failed error :: limitedReads capacity rounds (limit + 1) source

theorem supplied_limitedReads (hc : 0 < capacity) (ho : source.data.length + source.answers.length < rounds) :
    supplied (limitedReads capacity rounds limit source) <+: source.data.take limit ∧
      (ends (limitedReads capacity rounds limit source) = true →
        supplied (limitedReads capacity rounds limit source) = source.data.take limit) := by
  induction rounds generalizing limit source with
  | zero => omega
  | succ rounds ih =>
    cases limit with
    | zero =>
      rw [limitedReads, take_zero]
      exact ⟨prefix_refl _, fun _ => rfl⟩
    | succ limit =>
      rw [limitedReads]
      have hs := read_step (min capacity (limit + 1)) source
      generalize read (min capacity (limit + 1)) source = answered at hs ⊢
      cases hs with
      | interrupted ha =>
        have hl := congrArg List.length ha
        rw [length_cons] at hl
        exact ih (by simp only; omega)
      | failed ha =>
        refine ⟨List.nil_prefix, fun he => ?_⟩
        cases he
      | @bytes bytes rest hd hr hn =>
        cases bytes with
        | nil =>
          have hi := (hn rfl).resolve_right (by omega)
          rw [hi, take_nil]
          exact ⟨prefix_refl _, fun _ => rfl⟩
        | cons byte bytes =>
          have hl := congrArg List.length hd
          have hr' : (byte :: bytes).length ≤ limit + 1 := by omega
          rw [length_append, length_cons] at hl
          have hta : source.answers.tail.length ≤ source.answers.length := by
            rw [length_tail]
            exact Nat.sub_le _ _
          have ht : source.data.take (limit + 1) =
              (byte :: bytes) ++ rest.take (limit + 1 - (byte :: bytes).length) := by
            rw [hd, take_append, take_of_length_le hr']
          obtain ⟨hf, hw⟩ := @ih (limit + 1 - (byte :: bytes).length)
            ⟨rest, source.answers.tail⟩ (by simp only; omega)
          rw [ht]
          refine ⟨(prefix_append_right_inj _).2 hf, fun he => ?_⟩
          exact congrArg ((byte :: bytes) ++ ·) (hw he)

theorem ends_limitedReads {capacity rounds limit : ℕ} {source : Source α ε}
    (h : ∀ error, .failed error ∉ source.answers) :
    ends (limitedReads capacity rounds limit source) = true := by
  induction rounds generalizing limit source with
  | zero => rfl
  | succ rounds ih =>
    cases limit with
    | zero => rfl
    | succ limit =>
      rw [limitedReads]
      have hs := read_step (min capacity (limit + 1)) source
      generalize read (min capacity (limit + 1)) source = answered at hs ⊢
      cases hs with
      | interrupted ha =>
        exact ih fun error hm => h error (ha ▸ mem_cons_of_mem _ hm)
      | @failed error answers ha =>
        exact absurd (ha ▸ mem_cons_self) (h error)
      | @bytes bytes rest hd hr he =>
        cases bytes with
        | nil => rfl
        | cons byte bytes => exact ih fun error hm => h error (mem_of_mem_tail hm)

def Acceptance.delivers : Acceptance ε → Bool
  | .upTo _ => true
  | .interrupted => false
  | .failed _ => false

/-- What has been written, and how the sink will answer the next writes. After the last answer
it accepts everything. -/
structure Sink (α ε : Type) where
  written : List α
  answers : List (Acceptance ε)
  deriving DecidableEq

inductive WriteError (ε : Type) where
  | writeZero
  | failed (error : ε)
  deriving DecidableEq

/-- Write a buffer until the sink has accepted all of it: the outcome, what was accepted, and the
answers that are left. -/
def accept : List (Acceptance ε) → List α →
    Except (WriteError ε) Unit × List α × List (Acceptance ε)
  | answers, [] => (.ok (), [], answers)
  | [], buffer => (.ok (), buffer, [])
  | .interrupted :: answers, buffer => accept answers buffer
  | .failed error :: answers, _ => (.error (.failed error), [], answers)
  | .upTo 0 :: answers, _ => (.error .writeZero, [], answers)
  | .upTo (count + 1) :: answers, buffer =>
    let later := accept answers (buffer.drop (count + 1))
    (later.1, buffer.take (count + 1) ++ later.2.1, later.2.2)

def writeAll (buffer : List α) : Faulty (Sink α ε) (WriteError ε) Unit :=
  respond fun sink => ((accept sink.answers buffer).1,
    ⟨sink.written ++ (accept sink.answers buffer).2.1, (accept sink.answers buffer).2.2⟩)

theorem accept_spec (answers : List (Acceptance ε)) (buffer : List α) :
    ((accept answers buffer).1 = .ok () ∧ (accept answers buffer).2.1 = buffer) ∨
      ((∃ error, (accept answers buffer).1 = .error error) ∧
        ∃ rest, rest ≠ [] ∧ buffer = (accept answers buffer).2.1 ++ rest) := by
  induction answers generalizing buffer with
  | nil =>
    cases buffer with
    | nil | cons => exact .inl ⟨rfl, rfl⟩
  | cons answer answers ih =>
    cases buffer with
    | nil => exact .inl ⟨rfl, rfl⟩
    | cons byte buffer =>
      cases answer with
      | interrupted => exact ih (byte :: buffer)
      | failed error => exact .inr ⟨⟨_, rfl⟩, byte :: buffer, cons_ne_nil _ _, rfl⟩
      | upTo count =>
        cases count with
        | zero => exact .inr ⟨⟨_, rfl⟩, byte :: buffer, cons_ne_nil _ _, rfl⟩
        | succ count =>
          have hs : accept (.upTo (count + 1) :: answers) (byte :: buffer) =
              ((accept answers ((byte :: buffer).drop (count + 1))).1,
                (byte :: buffer).take (count + 1) ++
                  (accept answers ((byte :: buffer).drop (count + 1))).2.1,
                (accept answers ((byte :: buffer).drop (count + 1))).2.2) := rfl
          rw [hs]
          rcases ih ((byte :: buffer).drop (count + 1)) with ⟨hok, ha⟩ | ⟨he, rest, hne, hr⟩
          · exact .inl ⟨hok, by rw [ha, take_append_drop]⟩
          · refine .inr ⟨he, rest, hne, ?_⟩
            rw [append_assoc, ← hr, take_append_drop]

def Acceptance.proceeds : Acceptance ε → Bool
  | .upTo 0 => false
  | .upTo (_ + 1) => true
  | .interrupted => true
  | .failed _ => false

theorem accept_proceeds {answers : List (Acceptance ε)} (h : ∀ answer ∈ answers, answer.proceeds)
    (buffer : List α) :
    (accept answers buffer).1 = .ok () ∧ ∀ answer ∈ (accept answers buffer).2.2, answer.proceeds := by
  induction answers generalizing buffer with
  | nil =>
    cases buffer with
    | nil | cons => exact ⟨rfl, h⟩
  | cons answer answers ih =>
    obtain ⟨ha, hn⟩ := forall_mem_cons.1 h
    cases buffer with
    | nil => exact ⟨rfl, h⟩
    | cons byte buffer =>
      cases answer with
      | interrupted => exact ih hn (byte :: buffer)
      | failed error => cases ha
      | upTo count =>
        cases count with
        | zero => cases ha
        | succ count => exact ih hn ((byte :: buffer).drop (count + 1))

def Accepting (sink : Sink α ε) : Prop := ∀ answer ∈ sink.answers, answer.proceeds

/-- What was written before, and the promise to accept everything if there is one. -/
def Wrote (accepting : Prop) (before : List α) (sink : Sink α ε) : Prop :=
  sink.written = before ∧ (accepting → Accepting sink)

/-- A write that was cut short, which does not happen with a sink that accepts everything. -/
def CutShort (accepting : Prop) (before buffer : List α) (sink : Sink α ε) : Prop :=
  ¬accepting ∧ ∃ taken rest, rest ≠ [] ∧ buffer = taken ++ rest ∧ sink.written = before ++ taken

section Writes

variable {accepting : Prop}

theorem CutShort.left (h : CutShort accepting before first sink) :
    CutShort accepting before (first ++ second) sink := by
  obtain ⟨ho, taken, rest, hr, rfl, hw⟩ := h
  exact ⟨ho, taken, rest ++ second, fun hn => hr (append_eq_nil_iff.1 hn).1, append_assoc _ _ _, hw⟩

theorem CutShort.right (h : CutShort accepting (before ++ first) second sink) :
    CutShort accepting before (first ++ second) sink := by
  obtain ⟨hn, taken, rest, hr, rfl, hw⟩ := h
  exact ⟨hn, first ++ taken, rest, hr, (append_assoc _ _ _).symm, hw.trans (append_assoc _ _ _)⟩

theorem writeAll_spec {C : Sink α ε → Prop} (buffer : List α) :
    Triple (Wrote accepting before) (writeAll buffer)
      (fun _ => Wrote accepting (before ++ buffer)) (fun _ => CutShort accepting before buffer) C := by
  refine Triple.respond ?_ ?_
  · intro sink _ hs hok
    refine ⟨?_, fun ha => ?_⟩
    · rcases accept_spec sink.answers buffer with ⟨-, hl⟩ | ⟨⟨error, he⟩, -⟩
      · rw [hl, hs.1]
      · rw [he] at hok
        cases hok
    · exact (accept_proceeds (hs.2 ha) buffer).2
  · intro sink error hs he
    refine ⟨fun ha => ?_, ?_⟩
    · rw [(accept_proceeds (hs.2 ha) buffer).1] at he
      cases he
    · rcases accept_spec sink.answers buffer with ⟨hok, -⟩ | ⟨-, rest, hne, hr⟩
      · rw [hok] at he
        cases he
      · exact ⟨_, rest, hne, hr, by rw [hs.1]⟩

end Writes

end ByteStreams
