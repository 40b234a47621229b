import Narjar.HttpResponses

/-!
# The framing of responses

What has been written when a response ends, and when the connection may carry another one.
-/
namespace ResponseFraming

open ByteCodecs NarFormat TextFields FaultyPrograms ByteStreams HttpRequests HttpResponses List

section Head

variable {ρ : Type} (response : Response ρ) (connection : ConnectionDisposition)

theorem return_notMem_value (header : ResponseHeader) :
    13 ∉ header.name ∧ 13 ∉ header.value ∧ header.name ≠ [] := by
  have hv := header.valid
  unfold validateHeader at hv
  split_ifs at hv with hn ha
  rw [not_or] at hn
  obtain ⟨hne, hn⟩ := hn
  refine ⟨fun hm => hn ?_, fun hm => ha ?_, hne⟩
  · exact any_eq_true.2 ⟨13, hm, by decide⟩
  · exact any_eq_true.2 ⟨13, hm, by decide⟩

theorem return_notMem_decimal (n : ℕ) : 13 ∉ decimal n := by
  intro hm
  have hd := decimal_digit hm
  revert hd
  decide

theorem return_notMem_reason (status : ℕ) : 13 ∉ ascii (reason status).toList := by
  unfold reason
  split <;> decide

theorem headLines_plain :
    ∀ line ∈ headLines response connection, line ≠ [] ∧ (13 : UInt8) ∉ line := by
  intro line hi
  rcases mem_append.1 hi with hf | hl
  · rcases mem_cons.1 hf with rfl | hh
    · refine ⟨append_ne_nil_of_left_ne_nil (append_ne_nil_of_right_ne_nil _
        (cons_ne_nil _ _)) _, ?_⟩
      simp only [statusLine, mem_append, not_or]
      exact ⟨⟨⟨by decide, return_notMem_decimal _⟩, by decide⟩, return_notMem_reason _⟩
    · obtain ⟨header, -, rfl⟩ := mem_map.1 hh
      obtain ⟨hn, hv, -⟩ := return_notMem_value header
      refine ⟨append_ne_nil_of_left_ne_nil (append_ne_nil_of_right_ne_nil _
        (cons_ne_nil _ _)) _, ?_⟩
      simp only [headerLine, mem_append, not_or]
      exact ⟨⟨hn, by decide⟩, hv⟩
  · rcases mem_cons.1 hl with rfl | hc
    · refine ⟨append_ne_nil_of_right_ne_nil _ (decimal_ne_nil _), ?_⟩
      simp only [contentLengthLine, mem_append, not_or]
      exact ⟨by decide, return_notMem_decimal _⟩
    · rw [mem_singleton.1 hc]
      cases connection with
      | keepAlive | close => exact ⟨by decide, by decide⟩

theorem splitOnce_responseHead (rest : Bytes) : ∃ front,
    splitOnce headerDelimiter (responseHead response connection ++ rest) = some (front, rest) := by
  rw [responseHead, append_assoc]
  exact splitOnce_blankLine (by decide) (cons_ne_nil _ _) (headLines_plain response connection) rest

end Head

section Copies

variable {accepting : Prop} {before : Bytes} {C : Sink UInt8 SocketError → Prop}

theorem writeHeaders_spec {ρ : Type} (response : Response ρ) (connection : ConnectionDisposition) :
    Triple (Wrote accepting before) (writeHeaders response connection)
      (fun _ => Wrote accepting (before ++ responseHead response connection))
      (fun _ => CutShort accepting before (responseHead response connection)) C := by
  unfold writeHeaders
  exact Triple.mapError (writeAll_spec _)

/-- A body of which only a beginning was written, and how much of it. -/
def Partly (before body : Bytes) (start : ℕ) (failure : TransferFailure)
    (sink : Sink UInt8 SocketError) : Prop :=
  ∃ sent, sent <+: body ∧ sink.written = before ++ sent ∧ failure.bodyBytes = start + sent.length

theorem writeBody_spec (bodyBytes : ℕ) (buffer : Bytes) :
    Triple (Wrote accepting before) (writeBody bodyBytes buffer)
      (fun count sink => count = bodyBytes + buffer.length ∧ Wrote accepting (before ++ buffer) sink)
      (fun failure sink => ¬accepting ∧ Partly before buffer bodyBytes failure sink) C := by
  refine Triple.respond ?_ ?_
  · intro sink count hs hok
    rcases accept_spec sink.answers buffer with ⟨hd, hl⟩ | ⟨⟨error, he⟩, -⟩
    · rw [hd] at hok
      rw [hl] at hok ⊢
      refine ⟨(Except.ok.inj hok).symm, by rw [hs.1], fun ha => ?_⟩
      exact (accept_proceeds (hs.2 ha) buffer).2
    · rw [he] at hok
      cases hok
  · intro sink failure hs hf
    rcases accept_spec sink.answers buffer with ⟨hd, -⟩ | ⟨⟨error, he⟩, rest, -, hr⟩
    · rw [hd] at hf
      cases hf
    · refine ⟨fun ha => ?_, _, ⟨rest, hr.symm⟩, by rw [hs.1], ?_⟩
      · rw [(accept_proceeds (hs.2 ha) buffer).1] at he
        cases he
      · rw [he] at hf
        rw [← Except.error.inj hf]

theorem copyFrom_spec (bodyBytes : ℕ) (source : List (Answer UInt8 SocketError)) :
    Triple (Wrote accepting before) (copyFrom bodyBytes source)
      (fun count sink => ends source = true ∧ count = bodyBytes + (supplied source).length ∧
        Wrote accepting (before ++ supplied source) sink)
      (fun failure sink => (accepting → ends source = false) ∧
        Partly before (supplied source) bodyBytes failure sink) C := by
  induction source generalizing before bodyBytes with
  | nil =>
    refine .pure fun sink hs => ⟨rfl, rfl, ?_⟩
    rw [supplied, append_nil]
    exact hs
  | cons answer source ih =>
    cases answer with
    | interrupted => exact ih bodyBytes
    | failed error =>
      refine .stop fun sink hs => ⟨fun _ => rfl, [], nil_prefix, ?_, rfl⟩
      rw [append_nil]
      exact hs.1
    | bytes bytes =>
      cases bytes with
      | nil =>
        refine .pure fun sink hs => ⟨rfl, rfl, ?_⟩
        rw [supplied, append_nil]
        exact hs
      | cons byte bytes =>
        refine .bind ((writeBody_spec bodyBytes (byte :: bytes)).relax ?_ fun _ => id) fun count => .assuming fun hc => ?_
        · rintro failure sink ⟨ho, sent, hn, hw, hf⟩
          refine ⟨fun ha => absurd ha ho, sent, ?_, hw, hf⟩
          exact hn.trans (prefix_append _ _)
        · refine (@ih (before ++ byte :: bytes) count).consequence (fun _ => id) ?_ ?_ fun _ => id
          · rintro total sink ⟨he, ht, hs⟩
            refine ⟨he, ?_, ?_⟩
            · rw [supplied, length_append, ht, hc, Nat.add_assoc]
            · rw [append_assoc] at hs
              exact hs
          · rintro failure sink ⟨he, sent, hn, hw, hf⟩
            refine ⟨he, byte :: bytes ++ sent, ?_, ?_, ?_⟩
            · exact (prefix_append_right_inj _).2 hn
            · rw [hw, append_assoc]
            · rw [hf, hc, length_append, Nat.add_assoc]

theorem sendLoop_upTo (count : ℕ) (answers : List (Acceptance SocketError)) (data : Bytes)
    (remaining : ℕ) :
    sendLoop (.upTo count :: answers) data (remaining + 1) =
      if data.take (min count (remaining + 1)) = [] then (.truncated, [], answers) else
        ((sendLoop answers (data.drop (data.take (min count (remaining + 1))).length)
            (remaining + 1 - (data.take (min count (remaining + 1))).length)).1,
          data.take (min count (remaining + 1)) ++
            (sendLoop answers (data.drop (data.take (min count (remaining + 1))).length)
              (remaining + 1 - (data.take (min count (remaining + 1))).length)).2.1,
          (sendLoop answers (data.drop (data.take (min count (remaining + 1))).length)
            (remaining + 1 - (data.take (min count (remaining + 1))).length)).2.2) := rfl

theorem sendLoop_spec (answers : List (Acceptance SocketError)) (data : Bytes) (length : ℕ) :
    (sendLoop answers data length).2.1 <+: data.take length ∧
      ((sendLoop answers data length).1 = .complete →
        (sendLoop answers data length).2.1.length = length) := by
  induction answers generalizing data length with
  | nil =>
    cases length with
    | zero => exact ⟨List.nil_prefix, fun _ => rfl⟩
    | succ remaining =>
      rw [sendLoop]
      split_ifs with he
      · exact ⟨prefix_refl _, fun _ => length_take_of_le he⟩
      · rw [take_of_length_le (by omega)]
        refine ⟨prefix_refl _, fun hc => ?_⟩
        cases hc
  | cons answer answers ih =>
    cases length with
    | zero =>
      cases answer <;> exact ⟨List.nil_prefix, fun _ => rfl⟩
    | succ remaining =>
      cases answer with
      | interrupted => exact ih data (remaining + 1)
      | failed error =>
        refine ⟨List.nil_prefix, fun hc => ?_⟩
        cases hc
      | upTo count =>
        rw [sendLoop_upTo]
        generalize hs : data.take (min count (remaining + 1)) = sent
        have hf := hs ▸ take_prefix _ _
        obtain ⟨rest, rfl⟩ := hf
        have hh : sent.length ≤ remaining + 1 := by
          rw [← hs, length_take]
          omega
        rw [drop_left]
        split_ifs with hn
        · refine ⟨List.nil_prefix, fun hc => ?_⟩
          cases hc
        · obtain ⟨hl, ha⟩ := ih rest (remaining + 1 - sent.length)
          rw [take_append, take_of_length_le hh]
          refine ⟨(prefix_append_right_inj _).2 hl, fun hc => ?_⟩
          rw [length_append, ha hc]
          omega

theorem sendLoop_proceeds
    (h : ∀ answer ∈ answers, answer.proceeds) (data : Bytes) (length : ℕ) :
    (length ≤ data.length → (sendLoop answers data length).1 = .complete) ∧
      (∀ error, (sendLoop answers data length).1 ≠ .failed error) ∧
      ∀ answer ∈ (sendLoop answers data length).2.2, answer.proceeds := by
  induction answers generalizing data length with
  | nil =>
    cases length with
    | zero => exact ⟨fun _ => rfl, fun _ => SendEnd.noConfusion, h⟩
    | succ remaining =>
      rw [sendLoop]
      split_ifs with he
      · exact ⟨fun _ => rfl, fun _ => SendEnd.noConfusion, h⟩
      · exact ⟨fun hle => absurd hle he, fun _ => SendEnd.noConfusion, h⟩
  | cons answer answers ih =>
    obtain ⟨hn, ha⟩ := forall_mem_cons.1 h
    cases length with
    | zero => cases answer <;> exact ⟨fun _ => rfl, fun _ => SendEnd.noConfusion, h⟩
    | succ remaining =>
      cases answer with
      | interrupted => exact ih ha data (remaining + 1)
      | failed error => cases hn
      | upTo count =>
        cases count with
        | zero => cases hn
        | succ count =>
          rw [sendLoop_upTo]
          split_ifs with hi
          · refine ⟨fun hle => ?_, fun _ => SendEnd.noConfusion, ha⟩
            rcases take_eq_nil_iff.1 hi with hz | rfl
            · omega
            · rw [length_nil] at hle
              omega
          · obtain ⟨hc, hf, hl⟩ := ih ha
              (data.drop (data.take (min (count + 1) (remaining + 1))).length)
              (remaining + 1 - (data.take (min (count + 1) (remaining + 1))).length)
            refine ⟨fun hle => hc ?_, hf, hl⟩
            rw [length_drop]
            omega

def requested (file : OpenFile) (offset length : ℕ) : Bytes :=
  (file.content.drop offset).take length

def Readable (file : OpenFile) (offset length : ℕ) : Prop :=
  file.seek = .ok () ∧ ends (fileReads file offset length) = true ∧
    (requested file offset length).length = length

def Deliverable (linux : Bool) (file : OpenFile) (offset length : ℕ) : Prop :=
  if linux then offset ≤ i64Max ∧ (requested file offset length).length = length
  else Readable file offset length

theorem supplied_fileReads (file : OpenFile) (offset length : ℕ) :
    supplied (fileReads file offset length) <+: requested file offset length ∧
      (ends (fileReads file offset length) = true →
        supplied (fileReads file offset length) = requested file offset length) :=
  supplied_limitedReads (by decide) (Nat.lt_succ_self _)

theorem Deliverable.length_eq {linux : Bool} {offset length : ℕ}
    (h : Deliverable linux file offset length) : (requested file offset length).length = length := by
  cases linux with
  | true => exact h.2
  | false => exact h.2.2

/-- What a copy of a file comes to. -/
def FileCopied (before : Bytes) (file : OpenFile) (offset length : ℕ) (count : ℕ)
    (sink : Sink UInt8 SocketError) : Prop :=
  count = length ∧ sink.written = before ++ requested file offset length

theorem copyFileToStreamPortable_spec (file : OpenFile) (offset length : ℕ) :
    Triple (Wrote accepting before) (copyFileToStreamPortable file offset length)
      (fun count sink => Readable file offset length ∧
        FileCopied before file offset length count sink)
      (fun failure sink => (accepting → ¬Readable file offset length) ∧
        Partly before (requested file offset length) 0 failure sink) C := by
  obtain ⟨hfr, hw⟩ := supplied_fileReads file offset length
  refine .bind (Q := fun _ sink => file.seek = .ok () ∧ Wrote accepting before sink)
    (.mapError (.ofExcept ?_ ?_)) fun _ => .assuming fun hk => ?_
  · exact fun _ sink hok hs => ⟨hok, hs⟩
  · intro error sink ho hs
    refine ⟨fun _ hr => ?_, [], nil_prefix, ?_, rfl⟩
    · rw [hr.1] at ho
      cases ho
    · rw [append_nil]
      exact hs.1
  refine .bind ((copyFrom_spec 0 (fileReads file offset length)).relax ?_ fun _ => id) fun copied => ?_
  · rintro failure sink ⟨he, sent, ht, hi, hf⟩
    refine ⟨fun ha hr => ?_, sent, ht.trans hfr, hi, hf⟩
    have hn := hr.2.1
    rw [he ha] at hn
    cases hn
  refine .assuming fun he => .assuming fun hc => ?_
  rw [Nat.zero_add] at hc
  rw [hw he] at hc ⊢
  split_ifs with hl
  · exact .pure fun sink hs => ⟨⟨hk, he, hc.symm.trans hl⟩, hl, hs.1⟩
  · refine .stop fun sink hs => ⟨fun _ hr => ?_, _, prefix_refl _, hs.1, ?_⟩
    · rw [hr.2.2] at hc
      exact hl hc
    · rw [Nat.zero_add]
      exact hc

theorem copyFileToStreamLinux_spec (file : OpenFile) (offset length : ℕ) :
    Triple (Wrote accepting before) (copyFileToStreamLinux file offset length)
      (fun count sink => Deliverable true file offset length ∧
        FileCopied before file offset length count sink)
      (fun failure sink => (accepting → ¬Deliverable true file offset length) ∧
        Partly before (requested file offset length) 0 failure sink) C := by
  unfold copyFileToStreamLinux
  split_ifs with hf
  · refine .stop fun sink hi => ⟨fun _ hd => ?_, [], nil_prefix, ?_, rfl⟩
    · have hfi := hd.1
      omega
    · rw [append_nil]
      exact hi.1
  -- what the sending loop leaves behind, by the way it ends
  refine .bind (Q := fun sending sink => ∃ sent, sent <+: requested file offset length ∧
      sending.2 = sent.length ∧ sink.written = before ++ sent ∧
      (sending.1 = .complete → sent.length = length) ∧
      (accepting → Accepting sink ∧ (∀ error, sending.1 ≠ .failed error) ∧
        (length ≤ (file.content.drop offset).length → sending.1 = .complete))) ?_ ?_
  · refine .update fun sink hi => ?_
    obtain ⟨hn, hal⟩ := sendLoop_spec sink.answers (file.content.drop offset) length
    refine ⟨_, hn, rfl, by rw [hi.1], hal, fun ha => ?_⟩
    obtain ⟨hm, hfa, ht⟩ :=
      sendLoop_proceeds (hi.2 ha) (file.content.drop offset) length
    exact ⟨ht, hfa, hm⟩
  have hu : ∀ {ended : SendEnd}, ended ≠ .complete →
      (length ≤ (file.content.drop offset).length → ended = .complete) →
      ¬Deliverable true file offset length := by
    intro ended he hm hd
    have hl := hd.2
    rw [requested, length_take] at hl
    exact he (hm (by omega))
  rintro ⟨ended, count⟩
  cases ended with
  | complete =>
    refine .pure ?_
    rintro sink ⟨sent, hs, -, hw, hal, -⟩
    have hl := hal rfl
    have hr : sent = requested file offset length := by
      apply hs.eq_of_length_le
      rw [hl, requested]
      exact length_take_le _ _
    exact ⟨⟨Nat.le_of_not_lt hf, hr ▸ hl⟩, rfl, hr ▸ hw⟩
  | truncated =>
    refine .stop ?_
    rintro sink ⟨sent, hs, ho, hw, -, hc⟩
    refine ⟨fun ha => ?_, sent, hs, hw, ?_⟩
    · exact hu SendEnd.noConfusion (hc ha).2.2
    · rw [Nat.zero_add]
      exact ho
  | failed error =>
    simp only
    split_ifs with hfl
    · -- nothing has been sent yet, so the copy begins anew
      refine Triple.strengthen (A := fun sink => ¬accepting ∧ Wrote accepting before sink) ?_ ?_
      · refine .assuming fun hno => (copyFileToStreamPortable_spec file offset length).consequence
          (fun _ => id) ?_ ?_ fun _ => id
        · rintro count sink ⟨hre, hp⟩
          exact ⟨⟨Nat.le_of_not_lt hf, hre.2.2⟩, hp⟩
        · rintro failure sink ⟨-, hs⟩
          exact ⟨fun ha => absurd ha hno, hs⟩
      · rintro sink ⟨sent, hs, ho, hw, -, hc⟩
        have hni := eq_nil_of_length_eq_zero (ho.symm.trans hfl.2)
        refine ⟨fun ha => (hc ha).2.1 error rfl, ?_, fun ha => ?_⟩
        · rw [hw, hni, append_nil]
        · exact (hc ha).1
    · refine .stop ?_
      rintro sink ⟨sent, hs, ho, hw, -, hc⟩
      refine ⟨fun ha => ?_, sent, hs, hw, ?_⟩
      · exact absurd rfl ((hc ha).2.1 error)
      · rw [Nat.zero_add]
        exact ho

theorem copyFileToStream_spec (linux : Bool) (file : OpenFile) (offset length : ℕ) :
    Triple (Wrote accepting before) (copyFileToStream linux file offset length)
      (fun count sink => Deliverable linux file offset length ∧
        FileCopied before file offset length count sink)
      (fun failure sink => (accepting → ¬Deliverable linux file offset length) ∧
        Partly before (requested file offset length) 0 failure sink) C := by
  cases linux with
  | true => exact copyFileToStreamLinux_spec file offset length
  | false => exact copyFileToStreamPortable_spec file offset length

end Copies

section Responses

variable {accepting : Prop} {C : Sink UInt8 SocketError → Prop} {request : Request}
  {response : Response (List (Answer UInt8 SocketError))}

/-- What was written when a transfer is complete. -/
def Written (request : Request) (response : Response (List (Answer UInt8 SocketError)))
    (body : Bytes) (transfer : CompletedTransfer) (sink : Sink UInt8 SocketError) : Prop :=
  transfer = ⟨request.responseConnectionDisposition = .keepAlive, body.length⟩ ∧
    sink.written = responseHead response request.responseConnectionDisposition ++ body

/-- What was written when a transfer fails: some of the head, or the head and some of the body. -/
def Broken (request : Request) (response : Response (List (Answer UInt8 SocketError)))
    (body : Bytes) (failure : TransferFailure) (sink : Sink UInt8 SocketError) : Prop :=
  sink.written <+: responseHead response request.responseConnectionDisposition ∨
    Partly (responseHead response request.responseConnectionDisposition) body 0 failure sink

theorem Broken.isPrefix {body : Bytes} {failure sink}
    (h : Broken request response body failure sink) :
    sink.written <+: responseHead response request.responseConnectionDisposition ++ body := by
  rcases h with hh | ⟨sent, hs, hw, -⟩
  · exact hh.trans (prefix_append _ _)
  · rw [hw]
    exact (prefix_append_right_inj _).2 hs

def sentBody (request : Request) (body : Bytes) : Bytes :=
  if request.head.method = .head then [] else body

/-- The shape of both kinds of responses. -/
def transfer (request : Request) (response : Response (List (Answer UInt8 SocketError)))
    (copy : Transfer ℕ) : Transfer CompletedTransfer := do
  writeHeaders response request.responseConnectionDisposition
  let copy := if request.head.method = .head then pure 0 else copy
  let bodyBytes ← copy
  pure (completed request.responseConnectionDisposition bodyBytes)

theorem respond_eq : HttpResponses.respond request response =
    transfer request response (copyFrom 0 response.body) := by
  unfold HttpResponses.respond writeTo transfer
  rw [bind_assoc]
  simp only [decide_eq_true_eq]

theorem respondFile_eq (linux : Bool) (file : OpenFile) (offset length : ℕ) :
    respondFile linux request response file offset length =
      transfer request response (copyFileToStream linux file offset length) := rfl

theorem transfer_spec {good bad : Prop}
    (ho : Triple (Wrote accepting (responseHead response request.responseConnectionDisposition))
      copy
      (fun count sink => good ∧ count = body.length ∧
        sink.written = responseHead response request.responseConnectionDisposition ++ body)
      (fun failure sink => (accepting → bad) ∧
        Partly (responseHead response request.responseConnectionDisposition) body 0 failure sink) C) :
    Triple (Wrote accepting []) (transfer request response copy)
      (fun result sink => (request.head.method ≠ .head → good) ∧
        Written request response (sentBody request body) result sink)
      (fun failure sink => (accepting → request.head.method ≠ .head ∧ bad) ∧
        Broken request response body failure sink) C := by
  have he : Triple (Wrote accepting [])
      (writeHeaders response request.responseConnectionDisposition)
      (fun _ => Wrote accepting (responseHead response request.responseConnectionDisposition))
      (fun failure sink => (accepting → request.head.method ≠ .head ∧ bad) ∧
        Broken request response body failure sink) C := by
    refine (writeHeaders_spec response _).relax ?_ fun _ => id
    rintro failure sink ⟨hn, taken, rest, -, hh, hw⟩
    refine ⟨fun ha => absurd ha hn, .inl ⟨rest, ?_⟩⟩
    rw [hw, nil_append, hh]
  refine .bind he fun _ => ?_
  refine .bind (Q := fun count (sink : Sink UInt8 SocketError) =>
    (request.head.method ≠ .head → good) ∧ count = (sentBody request body).length ∧
      sink.written = responseHead response request.responseConnectionDisposition ++ sentBody request body) ?_
    fun count => ?_
  · by_cases hh : request.head.method = .head
    · rw [if_pos hh, sentBody, if_pos hh]
      refine .pure fun sink hs => ⟨fun hn => absurd hh hn, rfl, ?_⟩
      rw [append_nil]
      exact hs.1
    · rw [if_neg hh, sentBody, if_neg hh]
      refine ho.consequence (fun _ => id) ?_ ?_ fun _ => id
      · rintro count sink ⟨hg, hc, hw⟩
        exact ⟨fun _ => hg, hc, hw⟩
      · rintro failure sink ⟨hb, hp⟩
        exact ⟨fun ha => ⟨hh, hb ha⟩, .inr hp⟩
  · refine .pure ?_
    rintro sink ⟨hg, hc, hw⟩
    refine ⟨hg, ?_, hw⟩
    rw [completed, hc]

theorem respond_spec :
    Triple (Wrote accepting []) (HttpResponses.respond request response)
      (fun result sink => (request.head.method ≠ .head → ends response.body = true) ∧
        Written request response (sentBody request (supplied response.body)) result sink)
      (fun failure sink => (accepting → request.head.method ≠ .head ∧ ends response.body = false) ∧
        Broken request response (supplied response.body) failure sink) C := by
  rw [respond_eq]
  refine transfer_spec ((copyFrom_spec 0 response.body).consequence (fun _ => id) ?_
    (fun _ _ => id) fun _ => id)
  rintro count sink ⟨he, hc, hs⟩
  rw [Nat.zero_add] at hc
  exact ⟨he, hc, hs.1⟩

theorem respondFile_spec (linux : Bool) (file : OpenFile) (offset length : ℕ) :
    Triple (Wrote accepting []) (respondFile linux request response file offset length)
      (fun result sink => (request.head.method ≠ .head → Deliverable linux file offset length) ∧
        Written request response (sentBody request (requested file offset length)) result sink)
      (fun failure sink =>
        (accepting → request.head.method ≠ .head ∧ ¬Deliverable linux file offset length) ∧
        Broken request response (requested file offset length) failure sink) C := by
  rw [respondFile_eq]
  refine transfer_spec ((copyFileToStream_spec linux file offset length).consequence (fun _ => id)
    ?_ (fun _ _ => id) fun _ => id)
  rintro count sink ⟨hd, hc, hw⟩
  exact ⟨hd, hc.trans hd.length_eq.symm, hw⟩

end Responses

def announced (request : Request) (response : Response (List (Answer UInt8 SocketError))) : ℕ :=
  if request.head.method = .head then 0 else response.contentLength

/-- A connection is handed back only behind a body of the announced length, and a client finds
there whatever follows. -/
def HandsBackInFrame (request : Request) (response : Response (List (Answer UInt8 SocketError)))
    (program : Transfer CompletedTransfer) : Prop :=
  ∀ answers faults result,
    (program ⟨[], answers⟩ faults).exit = .done result → result.handedBack = true →
    ∃ body, (program ⟨[], answers⟩ faults).state.written =
        responseHead response request.responseConnectionDisposition ++ body ∧
      body.length = announced request response ∧
      ∀ later, ∃ front,
        splitOnce headerDelimiter ((program ⟨[], answers⟩ faults).state.written ++ later) =
          some (front, body ++ later)

section Frames

variable {request : Request} {response : Response (List (Answer UInt8 SocketError))}
  {program : Transfer CompletedTransfer} {body : Bytes} {good bad : Prop}

/-- A program that writes the head and the body of a response keeps the frame if and only if the
body has the announced length whenever it can be sent at all. -/
theorem handsBackInFrame_iff
    (hp : ∀ accepting, Triple (Wrote accepting []) program
      (fun result sink => (request.head.method ≠ .head → good) ∧
        Written request response (sentBody request body) result sink)
      (fun _ _ => accepting → request.head.method ≠ .head ∧ ¬good) fun _ => False) :
    HandsBackInFrame request response program ↔
      (request.responseConnectionDisposition = .keepAlive → request.head.method ≠ .head → good →
        body.length = response.contentLength) := by
  constructor
  · intro hfr hk hm hg
    have hr := hp True ⟨[], []⟩ [] ⟨rfl, fun _ answer ha => absurd ha not_mem_nil⟩
    have hf := hfr [] []
    generalize program ⟨[], []⟩ [] = outcome at hr hf
    obtain ⟨exit, sink, rest⟩ := outcome
    cases exit with
    | crashed => exact hr.elim
    | failed failure => exact absurd hg (hr trivial).2
    | done result =>
      obtain ⟨-, he, hw⟩ := hr
      obtain ⟨sent, hn, hl, -⟩ := hf result rfl (by rw [he]; exact decide_eq_true hk)
      have hs := append_cancel_left (hw.symm.trans hn)
      rw [sentBody, if_neg hm] at hs
      rw [announced, if_neg hm] at hl
      rw [hs, hl]
  · intro hl answers faults result hx hb
    have hr := hp False ⟨[], answers⟩ faults ⟨rfl, False.elim⟩
    generalize program ⟨[], answers⟩ faults = outcome at hr hx ⊢
    obtain ⟨exit, sink, rest⟩ := outcome
    cases hx
    obtain ⟨hg, he, hw⟩ := hr
    rw [he] at hb
    refine ⟨_, hw, ?_, fun later => ?_⟩
    · rw [sentBody, announced]
      split_ifs with hm
      · rfl
      · exact hl (of_decide_eq_true hb) hm (hg hm)
    · rw [hw, append_assoc]
      exact splitOnce_responseHead response request.responseConnectionDisposition _

end Frames

/-- A response from a reader is framed if and only if the reader supplies the announced number of
bytes, and a response from a file if and only if the number of bytes asked for is the announced
one. -/
theorem responses_framed_iff_announced (request : Request)
    (response : Response (List (Answer UInt8 SocketError))) (linux : Bool) (file : OpenFile)
    (offset length : ℕ) :
    (HandsBackInFrame request response (HttpResponses.respond request response) ↔
      (request.responseConnectionDisposition = .keepAlive → request.head.method ≠ .head →
        ends response.body = true → (supplied response.body).length = response.contentLength)) ∧
    (HandsBackInFrame request response (respondFile linux request response file offset length) ↔
      (request.responseConnectionDisposition = .keepAlive → request.head.method ≠ .head →
        Deliverable linux file offset length → length = response.contentLength)) := by
  constructor
  · refine handsBackInFrame_iff fun accepting => respond_spec.relax ?_ fun _ => id
    rintro failure sink ⟨hb, -⟩ ha
    exact ⟨(hb ha).1, by rw [(hb ha).2]; exact Bool.false_ne_true⟩
  · have hs : ∀ accepting, Triple (Wrote accepting [])
        (respondFile linux request response file offset length)
        (fun result sink => (request.head.method ≠ .head → Deliverable linux file offset length) ∧
          Written request response (sentBody request (requested file offset length)) result sink)
        (fun _ _ => accepting → request.head.method ≠ .head ∧ ¬Deliverable linux file offset length)
        fun _ => False := by
      intro accepting
      refine (respondFile_spec linux file offset length).relax ?_ fun _ => id
      exact fun failure sink hb => hb.1
    rw [handsBackInFrame_iff hs]
    constructor
    · intro hl hk hm hd
      rw [← hl hk hm hd, hd.length_eq]
    · intro hl hk hm hd
      rw [← hl hk hm hd, hd.length_eq]

def keptGet : Request :=
  ⟨⟨[], []⟩, [], 0, ⟨ascii "GET".toList, .get, ascii "/".toList, [], none, .keepAlive, .none⟩,
    .complete, .keepAlive, .none⟩

def fiveBytes : OpenFile := ⟨ascii "hello".toList, .ok (), []⟩

theorem fiveBytes_framed :
    HandsBackInFrame keptGet ⟨200, [], [], 5⟩ (respondFile true keptGet ⟨200, [], [], 5⟩ fiveBytes 0 5) :=
  (responses_framed_iff_announced keptGet ⟨200, [], [], 5⟩ true fiveBytes 0 5).2.2 fun _ _ _ => rfl

/-- A reader that ends early leaves a connection behind that waits for one more byte. -/
def shortResponse : Response (List (Answer UInt8 SocketError)) :=
  ⟨200, [], [.bytes (ascii "hell".toList)], 5⟩

theorem shortResponse_handed_back :
    (HttpResponses.respond keptGet shortResponse ⟨[], []⟩ []).exit = .done ⟨true, 4⟩ ∧
      (HttpResponses.respond keptGet shortResponse ⟨[], []⟩ []).state.written =
        responseHead shortResponse .keepAlive ++ ascii "hell".toList ∧
      announced keptGet shortResponse = 5 := by
  decide +kernel

end ResponseFraming
