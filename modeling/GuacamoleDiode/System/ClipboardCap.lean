import GuacamoleDiode.Lib.Base64
import GuacamoleDiode.Lib.Limits
import GuacamoleDiode.System.DroppedBlobs

/-!
# The two caps of the clipboard

The payload of a blob is the base64 text of what the user has copied. There is a cap on the
plaintext and, derived from it by an approximate factor, the cap on the text that the guard and
the ack faker apply. The text grows by four characters at a time and the factor is a little too
small, so the two caps part just below the first.

## Main definitions

- `Opened`: both programs hold the clipboard stream open and wait for an instruction
- `PasteOn`: an instruction pastes some plaintext on a stream
- `CapsMatch`: the guard forwards a paste, and the faker lets it go, just within the first cap

## Main results

- `GuardOpcodeParser.forwards_iff`: what the guard passes on of one instruction
- `capsMatch_iff`
-/

namespace GuacamoleDiode

open Wire Policy

variable {limit : ℕ}

namespace GuardOpcodeParser

/-- The guard passes on an instruction that arrives whole. -/
def Forwards (p : OpcodeParser GuardMembers) (i : Instruction limit) : Prop :=
  ∃ q, p.cleanse hooks i.encode = some (i.encode, q)

/-- An instruction is passed on if its elements can be read and it keeps to the policy. -/
theorem forwards_iff {p : OpcodeParser GuardMembers} (hp : p.AtBoundary) (i : Instruction limit) :
    Forwards p i ↔ i.Within maxElementSize ∧ violates p.members.openStream i.values = false := by
  have hsession : OpcodeParser.Session hooks p.members (.start : Cursor maxElementSize) p :=
    ⟨⟨hp.2.2, hp.1, hp.2.1⟩, rfl⟩
  by_cases hwithin : i.Within maxElementSize
  · obtain ⟨j, hencode, hvalues⟩ := Instruction.exists_relimit hwithin
    rw [Forwards, ← hencode, ← hvalues]
    rcases hsession.cleanse stationary (.inl le_rfl) (Cursor.read_encode j) with
      ⟨hcut, -⟩ | ⟨-, out, q, hclean, hpass⟩
    · rcases hcut with ⟨hne, -⟩ | hdenied
      · exact absurd rfl hne
      · cases hdenied
    · have hout : out = wire (allowed p.members.openStream [j]) := by
        simpa [survivors_eq] using hpass.kept
      by_cases hviol : violates p.members.openStream j.values = true
      · have hnil : out = [] := by
          rw [hout]
          simp [allowed, without, hviol]
        have hne : out ≠ j.encode := fun h => j.encode_ne_nil (h.symm.trans hnil)
        simp [hclean, hne, hviol]
      · have hall : out = j.encode := by
          rw [hout]
          simp [allowed, without, hviol]
        simp [hclean, hall, hviol, hwithin]
  · have hnone := hsession.cleanse_none stationary rfl (Cursor.read_encode_none hwithin)
    simp [Forwards, hnone, hwithin]

end GuardOpcodeParser

namespace ClipboardAckFaker

/-- The faker has seen the elements of an instruction that arrives whole, however long they are. -/
theorem feed_encode {f : OpcodeParser ClipboardAckMembers} (hf : f.AtBoundary)
    (i : Instruction limit) :
    (feed f i.encode).1 = (hooks.judge (cleared f).members (seen i.elements)).1.acks := by
  have hlive : (cleared f).Live := by
    have hstate : (cleared f).state = .readingLength := hf.1
    simp [OpcodeParser.Live, hstate]
  have hsession : OpcodeParser.Session hooks (cleared f).members (.start : Cursor limit) (cleared f) :=
    ⟨⟨hf.2.2, hf.1, hf.2.1⟩, rfl⟩
  obtain ⟨-, hfold⟩ := OpcodeParser.resync_eq_foldl observes hlive (le_refl i.encode.length)
  have hread := hsession.absorb observes (.inr rfl) (Cursor.read_encode i)
  have hmembers : (feed f i.encode).2.members = hooks.after (cleared f).members i := by
    have hjudged := congrArg Prod.fst hread.judged
    rw [← hfold] at hjudged
    exact hjudged.symm
  have hallowed : hooks.judge (cleared f).members (seen i.elements) =
      ((hooks.judge (cleared f).members (seen i.elements)).1, false) :=
    Prod.ext rfl (OpcodeParser.judge_allowed observes.allows _ _)
  have hacks : (feed f i.encode).1 = (feed f i.encode).2.members.acks := rfl
  rw [hacks, hmembers, Hooks.after_of_allowed hallowed]
  rfl

/-- The payload of a blob on the open stream is acked if it exceeds the cap. -/
theorem acks_judge_blob {m : ClipboardAckMembers} {index : Bytes}
    (hindex : parseStreamIndex index = m.clipboardSidx) (hopen : 0 ≤ m.clipboardSidx) (payload : Bytes) :
    (hooks.judge m [ascii "blob", index, payload]).1.acks =
      m.acks ++ if maxClipboardBytes < payload.length then makeAck m.clipboardSidx else [] := by
  have hne : ascii "blob" ≠ ascii "clipboard" := by decide
  simp only [Hooks.judge, Hooks.close, hooks, onInstructionBegin, onArgument, parseIndex, List.foldl,
    hindex]
  by_cases hlong : maxClipboardBytes < payload.length
  · simp [hne, hopen, hlong]
  · simp [hne, hopen, hlong]

end ClipboardAckFaker

/-- The guard and the faker hold the clipboard stream `sidx` open, and wait for an instruction. -/
structure Opened (sidx : ℤ) (p : OpcodeParser GuardMembers) (f : OpcodeParser ClipboardAckMembers) :
    Prop where
  guard : p.AtBoundary
  faker : f.AtBoundary
  open_guard : p.members.clipboardSidx = sidx
  open_faker : f.members.clipboardSidx = sidx
  nonneg : 0 ≤ sidx

/-- A blob on stream `sidx` with the base64 text of `plain`. The index is no longer than the
buffer of the parsers, or they could not read it. -/
def PasteOn (sidx : ℤ) (plain : Bytes) (i : Instruction limit) : Prop :=
  ∃ index, index.length ≤ maxElementSize ∧ parseStreamIndex index = sidx ∧
    i.values = [ascii "blob", index, base64 plain]

/-- A paste that arrives whole is forwarded within the plaintext cap and acked beyond it. -/
structure CapsMatch (sidx : ℤ) (p : OpcodeParser GuardMembers)
    (f : OpcodeParser ClipboardAckMembers) (plain : Bytes) (i : Instruction limit) : Prop where
  forwarded : GuardOpcodeParser.Forwards p i ↔ plain.length ≤ maxInputBytes
  acked : (ClipboardAckFaker.feed f i.encode).1 = ClipboardAckFaker.makeAck sidx ↔
    maxInputBytes < plain.length

section

variable {sidx : ℤ} {p : OpcodeParser GuardMembers} {f : OpcodeParser ClipboardAckMembers}
  {plain : Bytes} {i : Instruction limit}

/-- The text keeps to its cap for 48 bytes of plaintext at most. -/
theorem base64_within_cap (plain : Bytes) :
    (base64 plain).length ≤ maxClipboardBytes ↔ plain.length ≤ 48 := by
  have hcap : maxClipboardBytes = 66 := by decide
  rw [length_base64, hcap]
  omega

theorem maxClipboardBytes_le : maxClipboardBytes ≤ maxElementSize := by decide

theorem Opened.forwards_iff (h : Opened sidx p f) (hi : PasteOn sidx plain i) :
    GuardOpcodeParser.Forwards p i ↔ plain.length ≤ 48 := by
  obtain ⟨index, hshort, hindex, hvalues⟩ := hi
  have hmem : ascii "blob" ∈ allowlist := by decide
  have hstream : streamIndex index = p.members.openStream := by
    rw [streamIndex, GuardMembers.openStream, hindex, h.open_guard]
  have hclean : streamIndex index ≠ none := by
    simp [streamIndex, hindex, h.nonneg]
  have hviolates : violates p.members.openStream i.values =
      decide (maxClipboardBytes < (base64 plain).length) := by
    rw [hvalues, ← hstream]
    simp [violates, blobViolates, hmem, hclean]
  rw [GuardOpcodeParser.forwards_iff h.guard, hviolates, decide_eq_false_iff_not, Nat.not_lt,
    base64_within_cap]
  constructor
  · rintro ⟨-, hcap⟩
    exact hcap
  · intro hcap
    refine ⟨?_, hcap⟩
    rw [Instruction.Within, hvalues]
    have htext := ((base64_within_cap plain).mpr hcap).trans maxClipboardBytes_le
    have hopcode : (ascii "blob").length ≤ maxElementSize := by decide
    simpa using ⟨hopcode, hshort, htext⟩

theorem Opened.acked_iff (h : Opened sidx p f) (hi : PasteOn sidx plain i) :
    (ClipboardAckFaker.feed f i.encode).1 = ClipboardAckFaker.makeAck sidx ↔ 48 < plain.length := by
  obtain ⟨index, hshort, hindex, hvalues⟩ := hi
  have hseen : seen i.elements = [ascii "blob", index, (base64 plain).take maxElementSize] := by
    have hmap : seen i.elements = i.values.map (List.take maxElementSize) := by
      simp [seen, Instruction.values]
    have hopcode : (ascii "blob").take maxElementSize = ascii "blob" := by decide
    rw [hmap, hvalues, List.map_cons, List.map_cons, List.map_cons, List.map_nil, hopcode,
      List.take_of_length_le hshort]
  have hsame : parseStreamIndex index = (ClipboardAckFaker.cleared f).members.clipboardSidx :=
    hindex.trans h.open_faker.symm
  have hopen : 0 ≤ (ClipboardAckFaker.cleared f).members.clipboardSidx := by
    rw [← hsame, hindex]
    exact h.nonneg
  -- the buffer of the faker holds less than the payload, but more than the cap
  have hclamped : maxClipboardBytes < ((base64 plain).take maxElementSize).length ↔
      48 < plain.length := by
    have hcap := base64_within_cap plain
    have hle := maxClipboardBytes_le
    have hlt : maxClipboardBytes < maxElementSize := by decide
    rw [List.length_take]
    omega
  have hack : ClipboardAckFaker.makeAck sidx ≠ [] := by simp [ClipboardAckFaker.makeAck, ascii]
  rw [ClipboardAckFaker.feed_encode h.faker, hseen, ClipboardAckFaker.acks_judge_blob hsame hopen,
    ← hsame, hindex, ← hclamped]
  have hcleared : (ClipboardAckFaker.cleared f).members.acks = [] := rfl
  rw [hcleared, List.nil_append]
  split_ifs with hlong
  · exact iff_of_true rfl hlong
  · exact iff_of_false hack.symm hlong

/-- The caps match for every paste but those of 49 and 50 bytes. -/
theorem capsMatch_iff (h : Opened sidx p f) (hi : PasteOn sidx plain i) :
    CapsMatch sidx p f plain i ↔ plain.length ≤ 48 ∨ maxInputBytes < plain.length := by
  have hinput : maxInputBytes = 50 := rfl
  have hforwards := h.forwards_iff hi
  have hacked := h.acked_iff hi
  rw [hinput]
  constructor
  · intro hmatch
    have hboth := hforwards.symm.trans hmatch.forwarded
    rw [hinput] at hboth
    omega
  · intro hlength
    refine ⟨hforwards.trans ?_, hacked.trans ?_⟩
    · rw [hinput]
      omega
    · rw [hinput]
      omega

end

section Fixed

theorem openClipboard_ne_nil : [ascii "clipboard", ascii "0", ascii "text/plain"] ≠ [] :=
  List.cons_ne_nil _ _

theorem fits_openClipboard :
    ∀ v ∈ [ascii "clipboard", ascii "0", ascii "text/plain"], Fits maxElementSize v := by
  decide +kernel

/-- The browser opens a clipboard stream. -/
def openClipboard : Instruction maxElementSize :=
  .ofValues [ascii "clipboard", ascii "0", ascii "text/plain"] openClipboard_ne_nil fits_openClipboard

theorem fits_pasteLetters {n : ℕ} (h : (n + 2) / 3 * 4 ≤ maxElementSize) :
    ∀ v ∈ [ascii "blob", ascii "0", base64 (List.replicate n 65)], Fits maxElementSize v := by
  have hopcode : Fits maxElementSize (ascii "blob") := by decide +kernel
  have hindex : Fits maxElementSize (ascii "0") := by decide +kernel
  have htext : Fits maxElementSize (base64 (List.replicate n 65)) := by
    apply fits_base64
    rwa [List.length_replicate]
  simpa using ⟨hopcode, hindex, htext⟩

/-- A paste of `n` letters on that stream. -/
def pasteLetters (n : ℕ) (h : (n + 2) / 3 * 4 ≤ maxElementSize) : Instruction maxElementSize :=
  .ofValues [ascii "blob", ascii "0", base64 (List.replicate n 65)] (List.cons_ne_nil _ _)
    (fits_pasteLetters h)

theorem opened_openClipboard :
    Opened 0 (GuardOpcodeParser.fresh.parse GuardOpcodeParser.hooks openClipboard.encode).2
      (ClipboardAckFaker.feed ClipboardAckFaker.fresh openClipboard.encode).2 where
  guard := ⟨by decide +kernel, by decide +kernel, by decide +kernel⟩
  faker := ⟨by decide +kernel, by decide +kernel, by decide +kernel⟩
  open_guard := by decide +kernel
  open_faker := by decide +kernel
  nonneg := Int.le_refl 0

theorem pasteOn_letters (n : ℕ) (h : (n + 2) / 3 * 4 ≤ maxElementSize) :
    PasteOn 0 (List.replicate n 65) (pasteLetters n h) :=
  ⟨ascii "0", by decide, by decide, Instruction.values_ofValues _ _ _⟩

/-- A paste of 48 bytes. -/
theorem capsMatch_shortPaste :
    Opened 0 (GuardOpcodeParser.fresh.parse GuardOpcodeParser.hooks openClipboard.encode).2
        (ClipboardAckFaker.feed ClipboardAckFaker.fresh openClipboard.encode).2 ∧
      PasteOn 0 (List.replicate 48 65) (pasteLetters 48 (by decide)) ∧
      (CapsMatch 0 (GuardOpcodeParser.fresh.parse GuardOpcodeParser.hooks openClipboard.encode).2
          (ClipboardAckFaker.feed ClipboardAckFaker.fresh openClipboard.encode).2
          (List.replicate 48 65) (pasteLetters 48 (by decide)) ↔
        (List.replicate 48 (65 : UInt8)).length ≤ 48 ∨
          maxInputBytes < (List.replicate 48 (65 : UInt8)).length) :=
  ⟨opened_openClipboard, pasteOn_letters 48 (by decide),
    capsMatch_iff opened_openClipboard (pasteOn_letters 48 (by decide))⟩

/-- A paste of 50 bytes is within the plaintext cap. The guard drops it, and the faker acks it. -/
theorem not_capsMatch_fiftyBytes :
    ¬∀ (sidx : ℤ) (p : OpcodeParser GuardMembers) (f : OpcodeParser ClipboardAckMembers)
      (plain : Bytes) (i : Instruction maxElementSize),
      Opened sidx p f → PasteOn sidx plain i → CapsMatch sidx p f plain i := by
  intro hclaim
  have hpaste := pasteOn_letters 50 (by decide)
  have hmatch := hclaim 0 _ _ _ _ opened_openClipboard hpaste
  have hforwards := (opened_openClipboard.forwards_iff hpaste).symm.trans hmatch.forwarded
  rw [List.length_replicate] at hforwards
  exact absurd (hforwards.mpr le_rfl) (by decide)

end Fixed

end GuacamoleDiode
