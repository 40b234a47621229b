import Narjar.NarDecoderEffects

/-!
# The decoder recognises the canonical grammar

The effect of a tree is read off its encoding, its counts and its preorder traversal. The
loop over open directories performs the effects of the remaining siblings and then continues
with the parent, which gives both directions of the correspondence.
-/
namespace NarDecoderGrammar

open ByteCodecs FallibleState NarFormat NarEffects NarDecoder NarDecoderEffects

variable {L : Limits} {d d' : Decoder (List Event)}

mutual
/-- The preorder traversal of a tree whose encoding starts at `offset`. -/
def nodeEvents (depth offset : ℕ) : Node → List Event
  | .regular executable contents =>
    .beginFile executable contents.length
        (offset + (fileHeader executable contents.length).length) ::
      (fileChunks contents).map .fileChunk ++ [.endFile]
  | .symlink target => [.symlink target]
  | .directory entries =>
    .beginDirectory depth ::
      entriesEvents (depth + 1) (offset + (nodeHeader directoryToken).length) entries ++
        [.endDirectory]
def entriesEvents (depth offset : ℕ) : List (Bytes × Node) → List Event
  | [] => []
  | (name, node) :: entries =>
    .entry name :: nodeEvents depth (offset + (entryHeader name).length) node ++
      entriesEvents depth
        (offset + (entryHeader name).length + node.encode.length +
          (paddedString closeToken).length) entries
end

def nodeEffect (depth : ℕ) (node : Node) : Effect Event where
  bytes := node.encode
  work := node.work
  entries := node.entryCount
  files := node.fileCount
  symlinks := node.symlinkCount
  events := fun offset => nodeEvents depth offset node

def entriesEffect (depth : ℕ) (entries : List (Bytes × Node)) : Effect Event where
  bytes := encodeEntries entries
  work := workEntries entries
  entries := countEntries entries
  files := countFiles entries
  symlinks := countSymlinks entries
  events := fun offset => entriesEvents depth offset entries

def fileEffect (executable : Bool) (contents : Bytes) : Effect Event :=
  text (executableMarker executable ++ paddedString contentsToken) ++
    text (leBytes 8 contents.length) ++
    eventAt (fun offset => .beginFile executable contents.length offset) ++
    bodyEffect contents ++ text (padding contents.length) ++ event .endFile ++
    text (paddedString closeToken) ++ oneFile

def symlinkEffect (target : Bytes) : Effect Event :=
  text (paddedString targetToken) ++ text (paddedString target) ++ event (.symlink target) ++
    text (paddedString closeToken) ++ oneSymlink

def openDirectory (depth : ℕ) : Effect Event :=
  tick ++ text (nodeHeader directoryToken) ++ event (.beginDirectory depth)

def closeDirectory : Effect Event := tick ++ text (paddedString closeToken) ++ event .endDirectory

def nameEffect (name : Bytes) : Effect Event :=
  tick ++ text (paddedString entryToken) ++ oneEntry ++ text (paddedString openToken) ++
    text (paddedString nameToken) ++ text (paddedString name)

def openEntry (name : Bytes) : Effect Event :=
  nameEffect name ++ event (.entry name) ++ text (paddedString nodeToken)

private theorem file_events (header marker tag size pad close : Bytes) (body : Effect Event)
    (chunks : List Event) (hb : ∀ offset, body.events offset = chunks) (start : ℕ → Event)
    (offset : ℕ) :
    (tick ++ text header ++ (text (marker ++ tag) ++ text size ++ eventAt start ++ body ++
        text pad ++ event Event.endFile ++ text close ++ oneFile)).events offset =
      start (offset + (header ++ marker ++ tag ++ size).length) :: chunks ++ [.endFile] := by
  simp [text, tick, event, eventAt, oneFile, hb, Nat.add_assoc]

theorem nodeEffect_regular (depth : ℕ) (executable : Bool) (contents : Bytes) :
    nodeEffect depth (.regular executable contents) =
      tick ++ text (nodeHeader regularToken) ++ fileEffect executable contents := by
  ext1
  · simp [nodeEffect, fileEffect, Node.encode, fileHeader, fileTrailer, text, tick, event,
      eventAt, bodyEffect, oneFile]
  · rfl
  · rfl
  · rfl
  · rfl
  · funext offset
    exact (file_events (nodeHeader regularToken) (executableMarker executable) _ _ _ _ _ _
      (fun _ => rfl) _ offset).symm

theorem nodeEffect_symlink (depth : ℕ) (target : Bytes) :
    nodeEffect depth (.symlink target) =
      tick ++ text (nodeHeader symlinkToken) ++ symlinkEffect target := by
  ext1
  · simp [nodeEffect, symlinkEffect, Node.encode, symlinkBytes, text, tick, event, oneSymlink]
  · rfl
  · rfl
  · rfl
  · rfl
  · rfl

theorem nodeEffect_directory (depth : ℕ) (entries : List (Bytes × Node)) :
    nodeEffect depth (.directory entries) =
      openDirectory depth ++ entriesEffect (depth + 1) entries ++ closeDirectory := by
  ext1
  · simp [nodeEffect, entriesEffect, openDirectory, closeDirectory, Node.encode, text, tick, event]
  · rfl
  · simp [nodeEffect, entriesEffect, openDirectory, closeDirectory, text, tick, event,
      Node.entryCount]
  · simp [nodeEffect, entriesEffect, openDirectory, closeDirectory, text, tick, event,
      Node.fileCount]
  · simp [nodeEffect, entriesEffect, openDirectory, closeDirectory, text, tick, event,
      Node.symlinkCount]
  · funext offset
    simp [nodeEffect, entriesEffect, openDirectory, closeDirectory, text, tick, event, nodeEvents]

theorem entriesEffect_nil (depth : ℕ) : entriesEffect depth [] = text [] := rfl

theorem entriesEffect_cons (depth : ℕ) (name : Bytes) (node : Node)
    (entries : List (Bytes × Node)) :
    entriesEffect depth ((name, node) :: entries) =
      openEntry name ++ nodeEffect depth node ++ text (paddedString closeToken) ++
        entriesEffect depth entries := by
  ext1
  · simp [nodeEffect, entriesEffect, openEntry, nameEffect, encodeEntries, entryHeader, text, tick, event,
      oneEntry]
  · simp [nodeEffect, entriesEffect, openEntry, nameEffect, workEntries, text, tick, event, oneEntry]
  · simp [nodeEffect, entriesEffect, openEntry, nameEffect, countEntries, text, tick, event, oneEntry]
  · simp [nodeEffect, entriesEffect, openEntry, nameEffect, countFiles, text, tick, event, oneEntry]
  · simp [nodeEffect, entriesEffect, openEntry, nameEffect, countSymlinks, text, tick, event, oneEntry]
  · funext offset
    simp [nodeEffect, entriesEffect, openEntry, nameEffect, entriesEvents, entryHeader, text, tick, event,
      oneEntry, Nat.add_assoc]

theorem decodeRegularFileNode_ok :
    decodeRegularFileNode L collect d = .ok (kind, d') ↔
      kind = .regular ∧ ∃ executable contents, contents.length ≤ L.maxFileBytes.toNat ∧
        Admits L d (fileEffect executable contents) ∧
        d' = (fileEffect executable contents).run d := by
  have hm := limit_le_u64Max L.maxFileBytes
  simp only [decodeRegularFileNode, bind_ok, readRegularFileExecutableFlag_ok, readU64_ok,
    ensure_ok, emit_ok, streamFileContents_ok,
    expect_ok (show closeToken.length ≤ tokenLimit by decide), countFile_ok, pure_ok,
    fileEffect, admits_append, run_append]
  constructor
  · rintro ⟨executable, _, ⟨hx, rfl⟩, size, _, ⟨-, hs, rfl⟩, _, _, ⟨hle, rfl⟩, offset, _, ho,
      _, _, rfl, _, _, ⟨contents, rfl, ⟨hb, hp⟩, rfl⟩, _, _, rfl,
      _, _, ⟨hc, rfl⟩, _, _, rfl, rfl, rfl⟩
    obtain ⟨rfl, rfl⟩ := Prod.mk.inj (Except.ok.inj ho)
    exact ⟨rfl, executable, contents, hle,
      ⟨⟨⟨⟨⟨⟨⟨hx, hs⟩, admits_eventAt _⟩, hb⟩, hp⟩, admits_event _⟩, hc⟩, admits_oneFile⟩, rfl⟩
  · rintro ⟨rfl, executable, contents, hle, ⟨⟨⟨⟨⟨⟨⟨hx, hs⟩, -⟩, hb⟩, hp⟩, -⟩, hc⟩, -⟩, rfl⟩
    exact ⟨executable, _, ⟨hx, rfl⟩, contents.length, _, ⟨hle.trans hm, hs, rfl⟩, (), _,
      ⟨hle, rfl⟩, _, _, rfl, (), _, rfl, (), _, ⟨contents, rfl, ⟨hb, hp⟩, rfl⟩,
      (), _, rfl, (), _, ⟨hc, rfl⟩, (), _, rfl, rfl, rfl⟩

theorem checkSymlinkTarget_ok :
    (checkSymlinkTarget target : DecodeM _ Empty _) d = .ok (u, d') ↔
      (target ≠ [] ∧ 0 ∉ target) ∧ d' = d := by
  rw [← validateSymlinkTarget_ok (u := ())]
  unfold checkSymlinkTarget
  cases validateSymlinkTarget target <;> simp

theorem decodeSymlinkNode_ok :
    decodeSymlinkNode L collect d = .ok (kind, d') ↔
      kind = .symlink ∧ ∃ target, target.length ≤ L.maxSymlinkTargetBytes.toNat ∧
        (target ≠ [] ∧ 0 ∉ target) ∧ Admits L d (symlinkEffect target) ∧
        d' = (symlinkEffect target).run d := by
  simp only [decodeSymlinkNode, readSymlinkTarget, bind_ok, emit_ok,
    expect_ok (show closeToken.length ≤ tokenLimit by decide),
    expect_ok (show targetToken.length ≤ tokenLimit by decide),
    readString_ok (limit_le_u64Max L.maxSymlinkTargetBytes), checkSymlinkTarget_ok,
    countSymlink_ok, pure_ok, symlinkEffect, admits_append, run_append]
  constructor
  · rintro ⟨target, _, ⟨_, _, ⟨ha, rfl⟩, _, _, ⟨hle, ht, rfl⟩, _, _, ⟨hv, rfl⟩, rfl, rfl⟩,
      _, _, rfl, _, _, ⟨hc, rfl⟩, _, _, rfl, rfl, rfl⟩
    exact ⟨rfl, target, hle, hv, ⟨⟨⟨⟨ha, ht⟩, admits_event _⟩, hc⟩, admits_oneSymlink⟩, rfl⟩
  · rintro ⟨rfl, target, hle, hv, ⟨⟨⟨⟨ha, ht⟩, -⟩, hc⟩, -⟩, rfl⟩
    exact ⟨target, _, ⟨(), _, ⟨ha, rfl⟩, target, _, ⟨hle, ht, rfl⟩, (), _, ⟨hv, rfl⟩, rfl,
      rfl⟩, (), _, rfl, (), _, ⟨hc, rfl⟩, (), _, rfl, rfl, rfl⟩

theorem decodeNode_ok :
    decodeNode L collect depth d = .ok (kind, d') ↔
      (kind = .directory ∧ depth ≤ L.maxDepth.toNat ∧ Admits L d (openDirectory depth) ∧
        d' = (openDirectory depth).run d) ∨
      (kind ≠ .directory ∧ ∃ node : Node, node.kind = kind ∧ node.Canonical ∧
        node.Fits L depth ∧ Admits L d (nodeEffect depth node) ∧
        d' = (nodeEffect depth node).run d) := by
  simp only [decodeNode, bind_ok, bumpWork_ok, ensure_ok, readNodeKind_ok]
  constructor
  · rintro ⟨_, _, ⟨hw, rfl⟩, _, _, ⟨hd, rfl⟩, found, _, ⟨hh, rfl⟩, h⟩
    cases found with
    | directory =>
      simp only [bind_ok, emit_ok, pure_ok] at h
      obtain ⟨_, _, rfl, rfl, rfl⟩ := h
      refine .inl ⟨rfl, hd, ?_, ?_⟩
      · simp only [openDirectory, admits_append]
        exact ⟨⟨hw, hh⟩, admits_event _⟩
      · simp only [openDirectory, run_append]
        rfl
    | regular =>
      obtain ⟨rfl, executable, contents, hle, ha, rfl⟩ := decodeRegularFileNode_ok.1 h
      refine .inr ⟨by simp, .regular executable contents, rfl, trivial, ⟨hd, hle⟩, ?_, ?_⟩
      · rw [nodeEffect_regular, admits_append, admits_append, run_append]
        exact ⟨⟨hw, hh⟩, ha⟩
      · rw [nodeEffect_regular, run_append, run_append]
        rfl
    | symlink =>
      obtain ⟨rfl, target, hle, hv, ha, rfl⟩ := decodeSymlinkNode_ok.1 h
      refine .inr ⟨by simp, .symlink target, rfl, hv, ⟨hd, hle⟩, ?_, ?_⟩
      · rw [nodeEffect_symlink, admits_append, admits_append, run_append]
        exact ⟨⟨hw, hh⟩, ha⟩
      · rw [nodeEffect_symlink, run_append, run_append]
        rfl
  · rintro (⟨rfl, hd, ha, rfl⟩ | ⟨hk, node, rfl, hc, hf, ha, rfl⟩)
    · simp only [openDirectory, admits_append, run_append] at ha ⊢
      exact ⟨(), _, ⟨ha.1.1, rfl⟩, (), _, ⟨hd, rfl⟩, .directory, _, ⟨ha.1.2, rfl⟩,
        bind_ok.2 ⟨(), _, emit_ok.2 rfl, rfl⟩⟩
    · cases node with
      | directory entries => exact absurd rfl hk
      | regular executable contents =>
        rw [nodeEffect_regular, admits_append, admits_append, run_append] at ha
        rw [nodeEffect_regular, run_append, run_append]
        obtain ⟨hd, hle⟩ := hf
        exact ⟨(), _, ⟨ha.1.1, rfl⟩, (), _, ⟨hd, rfl⟩, .regular, _, ⟨ha.1.2, rfl⟩,
          decodeRegularFileNode_ok.2 ⟨rfl, executable, contents, hle, ha.2, rfl⟩⟩
      | symlink target =>
        rw [nodeEffect_symlink, admits_append, admits_append, run_append] at ha
        rw [nodeEffect_symlink, run_append, run_append]
        obtain ⟨hd, hle⟩ := hf
        exact ⟨(), _, ⟨ha.1.1, rfl⟩, (), _, ⟨hd, rfl⟩, .symlink, _, ⟨ha.1.2, rfl⟩,
          decodeSymlinkNode_ok.2 ⟨rfl, target, hle, hc, ha.2, rfl⟩⟩

theorem readNextDirectoryEntryName_ok :
    (readNextDirectoryEntryName L previous : DecodeM _ Empty _) d = .ok (next, d') ↔
      (next = none ∧ Admits L d (tick ++ text (paddedString closeToken)) ∧
        d' = (tick ++ text (paddedString closeToken)).run d) ∨
      (∃ name, next = some name ∧ AcceptedName L previous name ∧ Admits L d (nameEffect name) ∧
        d' = (nameEffect name).run d) := by
  simp only [readNextDirectoryEntryName, bind_ok, bumpWork_ok, readControlToken_ok, nameEffect,
    admits_append, run_append]
  constructor
  · rintro ⟨_, _, ⟨hw, rfl⟩, token, _, ⟨-, ht, rfl⟩, h⟩
    split at h
    · rename_i heq
      subst heq
      obtain ⟨rfl, rfl⟩ := pure_ok.1 h
      exact .inl ⟨rfl, ⟨hw, ht⟩, rfl⟩
    · simp only [bind_ok, ensure_ok, countEntry_ok, validateName, acceptOrderedName, pure_ok,
        readString_ok (limit_le_u64Max L.maxNameBytes),
        expect_ok (show openToken.length ≤ tokenLimit by decide),
        expect_ok (show nameToken.length ≤ tokenLimit by decide)] at h
      obtain ⟨_, _, ⟨rfl, rfl⟩, _, _, ⟨hc, rfl⟩, _, _, ⟨ho, rfl⟩, _, _, ⟨hg, rfl⟩,
        incoming, _, ⟨hs, hn, rfl⟩, _, _, ⟨hv, rfl⟩, name, _, ⟨_, _, ⟨hr, rfl⟩, rfl,
        rfl⟩, rfl, rfl⟩ := h
      exact .inr ⟨name, rfl, ⟨hs, hv, hr⟩, ⟨⟨⟨⟨⟨hw, ht⟩, hc⟩, ho⟩, hg⟩, hn⟩, rfl⟩
  · rintro (⟨rfl, ⟨hw, ht⟩, rfl⟩ | ⟨name, rfl, ha, ⟨⟨⟨⟨⟨hw, ht⟩, hc⟩, ho⟩, hg⟩, hn⟩, rfl⟩)
    · exact ⟨(), _, ⟨hw, rfl⟩, closeToken, _, ⟨by decide, ht, rfl⟩, rfl⟩
    · refine ⟨(), _, ⟨hw, rfl⟩, entryToken, _, ⟨by decide, ht, rfl⟩, ?_⟩
      rw [if_neg (by decide)]
      simp only [bind_ok, ensure_ok, countEntry_ok, validateName, acceptOrderedName, pure_ok,
        readString_ok (limit_le_u64Max L.maxNameBytes),
        expect_ok (show openToken.length ≤ tokenLimit by decide),
        expect_ok (show nameToken.length ≤ tokenLimit by decide)]
      exact ⟨(), _, ⟨trivial, rfl⟩, (), _, ⟨hc, rfl⟩, (), _, ⟨ho, rfl⟩, (), _,
        ⟨hg, rfl⟩, name, _, ⟨ha.short, hn, rfl⟩, (), _, ⟨ha.valid, rfl⟩, name, _,
        ⟨(), _, ⟨ha.ordered, rfl⟩, rfl, rfl⟩, rfl, rfl⟩

def endingEffect : DirectoryEnd → Effect Event
  | .root => text []
  | .entry => text (paddedString closeToken)

theorem finishDirectory_ok :
    finishDirectory L collect ending d = .ok (u, d') ↔
      Admits L d (event Event.endDirectory ++ endingEffect ending) ∧
        d' = (event Event.endDirectory ++ endingEffect ending).run d := by
  cases ending with
  | root =>
    simp [finishDirectory, emit_ok, endingEffect]
  | entry =>
    simp [finishDirectory, bind_ok, emit_ok, endingEffect, admits_append, run_append,
      expect_ok (show closeToken.length ≤ tokenLimit by decide)]

inductive Round (L : Limits) (frame : DirectoryFrame) (parents : List DirectoryFrame) :
    Effect Event → Stack → Prop where
  | finish : Round L frame parents (closeDirectory ++ endingEffect frame.ending)
      (parents.head?, parents.tail)
  | leaf {name : Bytes} {node : Node} (accepted : AcceptedName L frame.previous name)
      (notDirectory : node.kind ≠ .directory) (canonical : node.Canonical)
      (fits : node.Fits L (parents.length + 1)) :
      Round L frame parents
        (openEntry name ++ nodeEffect (parents.length + 1) node ++ text (paddedString closeToken))
        (some { frame with previous := name }, parents)
  | descend {name : Bytes} (accepted : AcceptedName L frame.previous name)
      (depth : parents.length + 1 ≤ L.maxDepth.toNat) :
      Round L frame parents (openEntry name ++ openDirectory (parents.length + 1))
        (some (.new .entry), { frame with previous := name } :: parents)

theorem decodeChildNode_ok :
    decodeChildNode L collect parent parents d = .ok (stack, d') ↔
      (parents.length + 1 ≤ L.maxDepth.toNat ∧ Admits L d (openDirectory (parents.length + 1)) ∧
        stack = (some (.new .entry), parent :: parents) ∧
        d' = (openDirectory (parents.length + 1)).run d) ∨
      (∃ node : Node, node.kind ≠ .directory ∧ node.Canonical ∧
        node.Fits L (parents.length + 1) ∧ stack = (some parent, parents) ∧
        Admits L d (nodeEffect (parents.length + 1) node ++ text (paddedString closeToken)) ∧
        d' = (nodeEffect (parents.length + 1) node ++ text (paddedString closeToken)).run d) := by
  have hl : ∀ {t : Decoder (List Event)} {s : Stack},
      (do expect L closeToken; pure (some parent, parents) : DecodeM _ Empty Stack) t =
        .ok (s, d') ↔ s = (some parent, parents) ∧ Admits L t (text (paddedString closeToken)) ∧
          d' = (text (paddedString closeToken)).run t := by
    intro t s
    simp only [bind_ok, expect_ok (show closeToken.length ≤ tokenLimit by decide), pure_ok]
    constructor
    · rintro ⟨_, _, ⟨ha, rfl⟩, rfl, rfl⟩
      exact ⟨rfl, ha, rfl⟩
    · rintro ⟨rfl, ha, rfl⟩
      exact ⟨(), _, ⟨ha, rfl⟩, rfl, rfl⟩
  simp only [decodeChildNode, bind_ok, decodeNode_ok, admits_append, run_append]
  constructor
  · rintro ⟨kind, t, (⟨rfl, hd, ha, rfl⟩ | ⟨hk, node, rfl, hn, hf, ha, rfl⟩), h⟩
    · obtain ⟨rfl, rfl⟩ := pure_ok.1 h
      exact .inl ⟨hd, ha, rfl, rfl⟩
    · have h' := h
      cases node with
      | directory entries => exact absurd rfl hk
      | regular | symlink =>
        obtain ⟨rfl, hc, rfl⟩ := hl.1 h
        exact .inr ⟨_, hk, hn, hf, rfl, ⟨ha, hc⟩, rfl⟩
  · rintro (⟨hd, ha, rfl, rfl⟩ | ⟨node, hk, hn, hf, rfl, ⟨ha, hc⟩, rfl⟩)
    · exact ⟨.directory, _, .inl ⟨rfl, hd, ha, rfl⟩, rfl⟩
    · refine ⟨node.kind, _, .inr ⟨hk, node, rfl, hn, hf, ha, rfl⟩, ?_⟩
      cases node with
      | directory entries => exact absurd rfl hk
      | regular | symlink => exact hl.2 ⟨rfl, hc, rfl⟩

theorem decodeDirectoryChildOrEnd_ok :
    decodeDirectoryChildOrEnd L collect frame parents d = .ok (stack, d') ↔
      ∃ effect, Round L frame parents effect stack ∧ Admits L d effect ∧ d' = effect.run d := by
  simp only [decodeDirectoryChildOrEnd, bind_ok, readNextDirectoryEntryName_ok]
  constructor
  · rintro ⟨next, _, (⟨rfl, ha, rfl⟩ | ⟨name, rfl, hc, ha, rfl⟩), h⟩
    · simp only [bind_ok, finishDirectory_ok, pure_ok] at h
      obtain ⟨_, _, ⟨he, rfl⟩, rfl, rfl⟩ := h
      refine ⟨_, .finish, ?_, ?_⟩
      · simp only [closeDirectory, admits_append, run_append] at ha he ⊢
        exact ⟨⟨ha, he.1⟩, he.2⟩
      · simp only [closeDirectory, run_append]
    · simp only [bind_ok, emit_ok, decodeChildNode_ok,
        expect_ok (show nodeToken.length ≤ tokenLimit by decide)] at h
      obtain ⟨_, _, rfl, _, _, ⟨hno, rfl⟩, h⟩ := h
      have ho : Admits L d (openEntry name) := by
        simp only [openEntry, admits_append, run_append]
        exact ⟨⟨ha, admits_event _⟩, hno⟩
      have hu : (openEntry name).run d = (text (paddedString nodeToken)).run
          ((event (.entry name)).run ((nameEffect name).run d)) := by
        simp only [openEntry, run_append]
      rw [← hu] at h
      rcases h with ⟨hd, hi, rfl, rfl⟩ | ⟨node, hk, hn, hf, rfl, hl, rfl⟩
      · exact ⟨_, .descend hc hd, admits_append.2 ⟨ho, hi⟩, by rw [run_append]⟩
      · refine ⟨_, .leaf hc hk hn hf, ?_, ?_⟩
        · rw [admits_append] at hl
          rw [admits_append, admits_append, run_append]
          exact ⟨⟨ho, hl.1⟩, hl.2⟩
        · simp only [run_append]
  · rintro ⟨effect, hr, ha, rfl⟩
    cases hr with
    | finish =>
      simp only [closeDirectory, admits_append, run_append] at ha ⊢
      refine ⟨none, _, .inl ⟨rfl, ha.1.1, rfl⟩, ?_⟩
      simp only [bind_ok, finishDirectory_ok, pure_ok, admits_append, run_append]
      exact ⟨(), _, ⟨⟨ha.1.2, ha.2⟩, rfl⟩, trivial, rfl⟩
    | leaf hc hk hn hf =>
      simp only [openEntry, admits_append, run_append] at ha ⊢
      refine ⟨some _, _, .inr ⟨_, rfl, hc, ha.1.1.1.1, rfl⟩, ?_⟩
      simp only [bind_ok, emit_ok, decodeChildNode_ok, admits_append, run_append,
        expect_ok (show nodeToken.length ≤ tokenLimit by decide)]
      exact ⟨(), _, rfl, (), _, ⟨ha.1.1.2, rfl⟩, .inr ⟨_, hk, hn, hf, trivial, ⟨ha.1.2, ha.2⟩, rfl⟩⟩
    | descend hc hd =>
      simp only [openEntry, admits_append, run_append] at ha ⊢
      refine ⟨some _, _, .inr ⟨_, rfl, hc, ha.1.1.1, rfl⟩, ?_⟩
      simp only [bind_ok, emit_ok, decodeChildNode_ok,
        expect_ok (show nodeToken.length ≤ tokenLimit by decide)]
      exact ⟨(), _, rfl, (), _, ⟨ha.1.2, rfl⟩, .inl ⟨hd, ha.2, trivial, rfl⟩⟩

/-- The rest of an open directory and what follows its end. -/
def restEffect (depth : ℕ) (entries : List (Bytes × Node)) (ending : DirectoryEnd) : Effect Event :=
  entriesEffect depth entries ++ closeDirectory ++ endingEffect ending

theorem admits_restEffect_cons :
    Admits L d (restEffect depth ((name, node) :: entries) ending) ↔
      Admits L d (openEntry name ++ nodeEffect depth node ++ text (paddedString closeToken)) ∧
        Admits L ((openEntry name ++ nodeEffect depth node ++
          text (paddedString closeToken)).run d) (restEffect depth entries ending) := by
  simp only [restEffect, entriesEffect_cons, admits_append, run_append, and_assoc]

theorem run_restEffect_cons (depth : ℕ) (name : Bytes) (node : Node)
    (entries : List (Bytes × Node)) (ending : DirectoryEnd) :
    (restEffect depth ((name, node) :: entries) ending).run d =
      (restEffect depth entries ending).run
        ((openEntry name ++ nodeEffect depth node ++ text (paddedString closeToken)).run d) := by
  simp only [restEffect, entriesEffect_cons, run_append]

theorem admits_descend :
    Admits L d (openEntry name ++ nodeEffect depth (.directory entries) ++
        text (paddedString closeToken)) ↔
      Admits L d (openEntry name ++ openDirectory depth) ∧
        Admits L ((openEntry name ++ openDirectory depth).run d)
          (restEffect (depth + 1) entries .entry) := by
  simp only [restEffect, nodeEffect_directory, endingEffect, admits_append, run_append, and_assoc]

theorem run_descend (depth : ℕ) (name : Bytes) (entries : List (Bytes × Node)) :
    (openEntry name ++ nodeEffect depth (.directory entries) ++
        text (paddedString closeToken)).run d = (restEffect (depth + 1) entries .entry).run
        ((openEntry name ++ openDirectory depth).run d) := by
  simp only [restEffect, nodeEffect_directory, endingEffect, run_append]

theorem decodeLoop_rest (fuel : ℕ) (h : decodeLoop L collect fuel (some frame, parents) d = .ok (u, d')) :
    ∃ entries left, Siblings L frame.previous (parents.length + 1) entries ∧
      Admits L d (restEffect (parents.length + 1) entries frame.ending) ∧ left < fuel ∧
      decodeLoop L collect left (parents.head?, parents.tail)
        ((restEffect (parents.length + 1) entries frame.ending).run d) = .ok (u, d') := by
  induction fuel using Nat.strongRecOn generalizing d frame parents with
  | ind fuel ih =>
    cases fuel with
    | zero => exact absurd h (by simp [decodeLoop])
    | succ fuel =>
      simp only [decodeLoop, bind_ok, decodeDirectoryChildOrEnd_ok] at h
      obtain ⟨stack, t, ⟨effect, hu, hd, rfl⟩, hr⟩ := h
      cases hu with
      | finish =>
        refine ⟨[], fuel, siblings_nil _ _ _, ?_, Nat.lt_succ_self _, ?_⟩
        · simpa [restEffect, entriesEffect_nil, admits_append, run_append, admits_text] using hd
        · simpa [restEffect, entriesEffect_nil, run_append] using hr
      | @leaf name node he hk hn hf =>
        obtain ⟨entries, left, hs, ha, hlt, hc⟩ := ih fuel (Nat.lt_succ_self _) hr
        refine ⟨(name, node) :: entries, left, siblings_cons.2 ⟨he, hn, hf, hs⟩,
          admits_restEffect_cons.2 ⟨hd, ha⟩, by omega, ?_⟩
        rw [run_restEffect_cons]
        exact hc
      | @descend name he hp =>
        obtain ⟨children, left, hh, hm, hlt, hc⟩ := ih fuel (Nat.lt_succ_self _) hr
        obtain ⟨entries, left', hs, ha, hlt', hc'⟩ := ih left (by omega) hc
        simp only [List.tail_cons, List.length_cons, DirectoryFrame.new] at hh hm ha hc'
        rw [← run_descend] at ha hc'
        have ho : (Node.directory children).Canonical ∧
            (Node.directory children).Fits L (parents.length + 1) := by
          obtain ⟨hn, hf⟩ := siblings_directory.1 hh
          exact ⟨hn, hp, hf⟩
        refine ⟨(name, .directory children) :: entries, left',
          siblings_cons.2 ⟨he, ho.1, ho.2, hs⟩,
          admits_restEffect_cons.2 ⟨admits_descend.2 ⟨hd, hm⟩, ha⟩, by omega, ?_⟩
        rw [run_restEffect_cons]
        exact hc'

@[simp] theorem decodeLoop_none (fuel : ℕ) (parents : List DirectoryFrame) :
    decodeLoop L collect fuel (none, parents) = pure () := by
  cases fuel <;> rfl

theorem decodeLoop_round (hr : Round L frame parents effect stack)
    (ha : Admits L d effect) (fuel : ℕ) :
    decodeLoop L collect (fuel + 1) (some frame, parents) d =
      decodeLoop L collect fuel stack (effect.run d) :=
  bind_of_ok (decodeDirectoryChildOrEnd_ok.2 ⟨effect, hr, ha, rfl⟩)

/-- The loop performs these entries wherever they stand, and continues with the parent. -/
def Performed (L : Limits) (entries : List (Bytes × Node)) : Prop :=
  ∀ (d : Decoder (List Event)) (previous : Bytes) (ending : DirectoryEnd)
    (parents : List DirectoryFrame),
    Siblings L previous (parents.length + 1) entries →
    Admits L d (restEffect (parents.length + 1) entries ending) →
    ∃ rounds ≤ workEntries entries + 1, ∀ fuel,
      decodeLoop L collect (fuel + rounds) (some ⟨previous, ending⟩, parents) d =
        decodeLoop L collect fuel (parents.head?, parents.tail)
          ((restEffect (parents.length + 1) entries ending).run d)

theorem performed_nil : Performed L [] := by
  intro d previous ending parents _ ha
  have ha' : Admits L d (closeDirectory ++ endingEffect ending) := by
    simpa [restEffect, entriesEffect_nil, admits_append, run_append, admits_text] using ha
  have hr : (restEffect (parents.length + 1) [] ending).run d =
      (closeDirectory ++ endingEffect ending).run d := by
    simp [restEffect, entriesEffect_nil, run_append]
  refine ⟨1, by simp, fun fuel => ?_⟩
  rw [hr]
  exact decodeLoop_round .finish ha' fuel

theorem performed_cons_leaf
    (hk : node.kind ≠ .directory) (ih : Performed L entries) :
    Performed L ((name, node) :: entries) := by
  intro d previous ending parents hs ha
  obtain ⟨hc, hn, hf, hr⟩ := siblings_cons.1 hs
  obtain ⟨he, ha⟩ := admits_restEffect_cons.1 ha
  obtain ⟨rounds, ho, hu⟩ := ih _ name ending parents hr ha
  refine ⟨rounds + 1, ?_, fun fuel => ?_⟩
  · simp only [workEntries]
    omega
  · rw [← Nat.add_assoc, run_restEffect_cons, ← hu]
    exact decodeLoop_round (.leaf hc hk hn hf) he _

theorem performed_cons_directory
    (ihc : Performed L children) (ih : Performed L entries) :
    Performed L ((name, .directory children) :: entries) := by
  intro d previous ending parents hs ha
  obtain ⟨hc, hn, hf, hr⟩ := siblings_cons.1 hs
  obtain ⟨he, ha⟩ := admits_restEffect_cons.1 ha
  obtain ⟨ho, hh⟩ := admits_descend.1 he
  have hi := siblings_directory.2 ⟨hn, hf.2⟩
  obtain ⟨inner, hin, hru⟩ :=
    ihc _ [] .entry ({ previous := name, ending := ending } :: parents) hi hh
  obtain ⟨rounds, hro, hu⟩ := ih _ name ending parents hr ha
  refine ⟨rounds + inner + 1, ?_, fun fuel => ?_⟩
  · simp only [workEntries, Node.work]
    omega
  · rw [run_restEffect_cons, ← hu, run_descend, ← Nat.add_assoc, ← Nat.add_assoc]
    exact (decodeLoop_round (.descend hc hf.1) ho _).trans (hru _)

mutual
theorem performed_children : ∀ (node : Node) (children : List (Bytes × Node)),
    node = .directory children → Performed L children
  | .regular _ _, _, h => by cases h
  | .symlink _, _, h => by cases h
  | .directory entries, _, h => by
    cases h
    exact performed_entries entries
theorem performed_entries : ∀ entries : List (Bytes × Node), Performed L entries
  | [] => performed_nil
  | (name, node) :: entries => by
    have ih := performed_entries entries
    have ihc := performed_children node
    cases node with
    | regular | symlink => exact performed_cons_leaf (by simp [Node.kind]) ih
    | directory children => exact performed_cons_directory (ihc children rfl) ih
end

theorem nodeEffect_rootDirectory (entries : List (Bytes × Node)) :
    (Admits L d (nodeEffect 0 (.directory entries)) ↔ Admits L d (openDirectory 0) ∧
      Admits L ((openDirectory 0).run d) (restEffect 1 entries .root)) ∧
    (nodeEffect 0 (.directory entries)).run d =
      (restEffect 1 entries .root).run ((openDirectory 0).run d) := by
  simp [restEffect, nodeEffect_directory, endingEffect, admits_append, run_append, and_assoc]

theorem decodeTree_ok :
    decodeTree L collect d = .ok (kind, d') ↔
      ∃ node : Node, kind = node.kind ∧ node.Canonical ∧ node.Fits L 0 ∧
        Admits L d (nodeEffect 0 node) ∧ d' = (nodeEffect 0 node).run d := by
  simp only [decodeTree, bind_ok, decodeNode_ok, pure_ok]
  constructor
  · rintro ⟨root, t, hno, fuel, t', hu, _, _, hl, rfl, rfl⟩
    obtain ⟨rfl, rfl⟩ := Prod.mk.inj (Except.ok.inj hu)
    rcases hno with ⟨rfl, hd, ho, rfl⟩ | ⟨hi, node, rfl, hc, hf, ha, rfl⟩
    · obtain ⟨entries, left, hs, hr, -, ht⟩ := decodeLoop_rest _ hl
      rw [List.head?_nil, decodeLoop_none] at ht
      obtain ⟨-, rfl⟩ := pure_ok.1 ht
      obtain ⟨ha, hn⟩ := nodeEffect_rootDirectory (L := L) (d := d) entries
      obtain ⟨hc, hf⟩ := siblings_directory.1 hs
      exact ⟨.directory entries, rfl, hc, ⟨hd, hf⟩, ha.2 ⟨ho, hr⟩, hn.symm⟩
    · refine ⟨node, rfl, hc, hf, ha, ?_⟩
      have hnn : rootStack node.kind = (none, []) := by
        cases hk : node.kind <;> simp_all [rootStack]
      rw [hnn] at hl
      simpa using hl
  · rintro ⟨node, rfl, hc, hf, ha, rfl⟩
    by_cases hi : node.kind = .directory
    · cases node with
      | regular | symlink => cases hi
      | directory entries =>
        obtain ⟨ha', hn⟩ := nodeEffect_rootDirectory (L := L) (d := d) entries
        obtain ⟨ho, hr⟩ := ha'.1 ha
        have hs := siblings_directory.2 ⟨hc, hf.2⟩
        obtain ⟨rounds, hro, hl⟩ := performed_entries entries _ [] .root [] hs hr
        have hu : rounds ≤ ((openDirectory 0).run d).reader.length := by
          have he := hr.input.length_le
          have hw := workEntries_le_length entries
          simp only [restEffect, entriesEffect, closeDirectory, endingEffect, text, tick, event,
            append_bytes, List.length_append, length_paddedString, length_closeToken] at he
          omega
        refine ⟨.directory, _, .inl ⟨rfl, hf.1, ho, rfl⟩, _, _, rfl, (), _, ?_, rfl, rfl⟩
        rw [← Nat.sub_add_cancel hu, hn]
        exact (hl _).trans (by simp)
    · refine ⟨node.kind, _, .inr ⟨hi, node, rfl, hc, hf, ha, rfl⟩, _, _, rfl, (), _, ?_, rfl, rfl⟩
      cases hk : node.kind with
      | directory => exact absurd hk hi
      | regular | symlink => simp [rootStack]

def summarize {δ : Type} (sha256 : Bytes → δ) (node : Node) : DecodeSummary δ where
  root := node.kind
  rawSize := (encodeNar node).length
  rawSha256 := sha256 (encodeNar node)
  entries := node.entryCount
  files := node.fileCount
  symlinks := node.symlinkCount

def archiveEvents (node : Node) : List Event := nodeEvents 0 (paddedString magic).length node

def archiveEffect (node : Node) : Effect Event := text (paddedString magic) ++ nodeEffect 0 node

theorem decodeArchive_ok :
    decodeArchive L collect d = .ok (kind, d') ↔
      ∃ node : Node, kind = node.kind ∧ node.Canonical ∧ node.Fits L 0 ∧
        Admits L d (archiveEffect node) ∧ d' = (archiveEffect node).run d ∧ d'.reader = [] := by
  simp only [decodeArchive, bind_ok, decodeTree_ok, ensure_ok, pure_ok, archiveEffect,
    admits_append, run_append, expect_ok (show magic.length ≤ tokenLimit by decide)]
  constructor
  · rintro ⟨_, _, ⟨hm, rfl⟩, _, _, ⟨node, rfl, hc, hf, ha, rfl⟩, _, _, hu, _, _,
      ⟨hz, rfl⟩, rfl, rfl⟩
    obtain ⟨rfl, rfl⟩ := Prod.mk.inj (Except.ok.inj hu)
    exact ⟨node, rfl, hc, hf, ⟨hm, ha⟩, rfl, List.length_eq_zero_iff.1 hz⟩
  · rintro ⟨node, rfl, hc, hf, ⟨hm, ha⟩, rfl, he⟩
    exact ⟨(), _, ⟨hm, rfl⟩, node.kind, _, ⟨node, rfl, hc, hf, ha, rfl⟩, _, _, rfl,
      (), _, ⟨by rw [he]; rfl, rfl⟩, rfl, rfl⟩

theorem admits_archive :
    Admits L (Decoder.start reader []) (archiveEffect node) ∧
        ((archiveEffect node).run (Decoder.start reader [])).reader = [] ↔
      reader = encodeNar node ∧ node.entryCount ≤ L.maxEntries.toNat ∧
        (encodeNar node).length ≤ L.maxTotalBytes.toNat ∧ node.work ≤ L.maxWork.toNat := by
  have hb : (archiveEffect node).bytes = encodeNar node := rfl
  have hw : (archiveEffect node).work = node.work := Nat.zero_add _
  have hn : (archiveEffect node).entries = node.entryCount := Nat.zero_add _
  have hl := node.work_le_length
  have hm := limit_le_u64Max L.maxTotalBytes
  have hc : (encodeNar node).length = (paddedString magic).length + node.encode.length :=
    List.length_append
  constructor
  · rintro ⟨⟨input, total, work, entries⟩, he⟩
    rw [hb] at input total
    rw [hw] at work
    rw [hn] at entries
    have ha : reader = encodeNar node := by
      obtain ⟨rest, hr⟩ := input
      change (Decoder.start reader []).reader.drop (encodeNar node).length = [] at he
      rw [← hr, List.drop_left] at he
      simpa [he, Decoder.start] using hr.symm
    simp only [Decoder.start, Decoder.meter, saturatingAdd, Nat.zero_add, Nat.sub_zero]
      at total work entries
    have ht := total (by
      intro h
      simp only [h, List.length_nil, length_paddedString] at hc
      omega)
    refine ⟨ha, ?_, ht, ?_⟩
    · by_cases h : node.entryCount = 0
      · omega
      · exact entries h
    · by_cases h : node.work = 0
      · omega
      · have := work h
        omega
  · rintro ⟨rfl, entries, total, work⟩
    refine ⟨⟨?_, fun _ => ?_, fun _ => ?_, fun _ => ?_⟩, ?_⟩
    · rw [hb]
      exact List.prefix_refl _
    · simpa [hb, Decoder.start, Decoder.meter] using total
    · rw [hw]
      simp only [Decoder.start, Decoder.meter, saturatingAdd]
      omega
    · simpa [hn, Decoder.start, Decoder.meter] using entries
    · simp [Effect.run, hb, Decoder.start]

def report {δ : Type} (sha256 : Bytes → δ) (root : RootKind) (d : Decoder (List Event)) :
    DecodeSummary δ where
  root := root
  rawSize := d.rawBytes
  rawSha256 := sha256 d.digest
  entries := d.entries
  files := d.files
  symlinks := d.symlinks

theorem decodeEvents_ok {δ : Type} {sha256 : Bytes → δ} {reader : Bytes}
    {summary events} :
    decodeEvents L sha256 reader = .ok (summary, events) ↔
      ∃ root d', decodeArchive L collect (Decoder.start reader []) = .ok (root, d') ∧
        summary = report sha256 root d' ∧ events = d'.sink := by
  unfold decodeEvents decode
  cases decodeArchive L collect (Decoder.start reader []) with
  | error e => simp
  | ok result =>
    simp only [Except.ok.injEq, Prod.mk.injEq]
    constructor
    · rintro ⟨rfl, rfl⟩
      exact ⟨result.1, result.2, rfl, rfl, rfl⟩
    · rintro ⟨root, d', rfl, rfl, rfl⟩
      exact ⟨rfl, rfl⟩

theorem report_archive {δ : Type} (sha256 : Bytes → δ)
    (h : (encodeNar node).length ≤ L.maxTotalBytes.toNat) :
    report sha256 node.kind ((archiveEffect node).run (Decoder.start (encodeNar node) [])) =
      summarize sha256 node := by
  obtain ⟨hf, hl, -⟩ := counts_exact h
  simp [report, summarize, Effect.run, archiveEffect, text, nodeEffect, Decoder.start, encodeNar,
    hf, hl]

/-- The decoder accepts exactly the canonical encodings within limits, emits the preorder
traversal of the encoded tree and reports its measurements. -/
theorem decodeEvents_eq_ok_iff {δ : Type} (sha256 : Bytes → δ) (L : Limits)
    (reader : Bytes) (summary : DecodeSummary δ) (events : List Event) :
    decodeEvents L sha256 reader = .ok (summary, events) ↔
      ∃ node : Node, node.Canonical ∧ WithinLimits L node ∧ reader = encodeNar node ∧
        events = archiveEvents node ∧ summary = summarize sha256 node := by
  rw [decodeEvents_ok]
  constructor
  · rintro ⟨root, d', hr, rfl, rfl⟩
    obtain ⟨node, rfl, hc, hf, ha, rfl, he⟩ := decodeArchive_ok.1 hr
    obtain ⟨rfl, hn, ht, hw⟩ := admits_archive.1 ⟨ha, he⟩
    exact ⟨node, hc, ⟨hf, hn, ht, hw⟩, rfl, rfl, report_archive sha256 ht⟩
  · rintro ⟨node, hc, ⟨hf, hn, ht, hw⟩, rfl, rfl, rfl⟩
    obtain ⟨ha, he⟩ := admits_archive.2 ⟨rfl, hn, ht, hw⟩
    exact ⟨node.kind, _, decodeArchive_ok.2 ⟨node, rfl, hc, hf, ha, rfl, he⟩,
      (report_archive sha256 ht).symm, rfl⟩

end NarDecoderGrammar
