import GuacamoleDiode.Guard.GuardOpcodeParser
import GuacamoleDiode.Parser.Stream

/-!
# What the guard allows

The policy of the guard in its own terms, as a fold over the instructions of a
stream. Its only memory is the clipboard stream that is open. An instruction
violates the policy if its opcode is not on the allowlist, or if it is a `blob`
that does not name the open clipboard stream or carries too much. The hooks of the
parser implement this policy element by element.
-/

namespace GuacamoleDiode

open Wire

variable {limit : ℕ}

namespace Policy

/-- The opcodes that may cross toward guacd. -/
def allowlist : List Bytes :=
  ["key", "ack", "end", "blob", "size", "name", "argv", "audio", "video", "image", "mouse",
    "select", "connect", "timezone", "clipboard", "disconnect"].map ascii

/-- The stream that an argument names, if it is a clean index. -/
def streamIndex (arg : Bytes) : Option ℕ :=
  if parseStreamIndex arg < 0 then none else some (parseStreamIndex arg).toNat

/-- The arguments of a `blob` received so far: the index, then the payload. -/
def blobViolates (stream : Option ℕ) : List Bytes → Bool
  | [] => false
  | index :: args =>
    streamIndex index = none || streamIndex index ≠ stream ||
      match args with
      | [] => false
      | payload :: _ => maxClipboardBytes < payload.length

/-- The elements of an instruction received so far break the policy while `stream` is open. -/
def violates (stream : Option ℕ) : List Bytes → Bool
  | [] => false
  | opcode :: args =>
    !allowlist.contains opcode || (opcode = ascii "blob" && blobViolates stream args)

/-- The clipboard stream that is open behind an instruction. -/
def next (stream : Option ℕ) : List Bytes → Option ℕ
  | opcode :: index :: _ =>
    if opcode = ascii "clipboard" then streamIndex index
    else if opcode = ascii "end" ∧ streamIndex index = stream then none
    else stream
  | _ => stream

/-- The clipboard stream that is open behind a sequence of instructions. -/
def after (stream : Option ℕ) (is : List (Instruction limit)) : Option ℕ :=
  is.foldl (fun st i => next st i.values) stream

/-- The instructions of a sequence that are not bad while their stream is open. -/
def without (bad : Option ℕ → List Bytes → Bool) :
    Option ℕ → List (Instruction limit) → List (Instruction limit)
  | _, [] => []
  | stream, i :: is =>
    if bad stream i.values then without bad (next stream i.values) is
    else i :: without bad (next stream i.values) is

/-- The instructions of a sequence that keep to the policy. -/
def allowed (stream : Option ℕ) (is : List (Instruction limit)) : List (Instruction limit) :=
  without violates stream is

@[simp] theorem after_nil (stream : Option ℕ) :
    after stream ([] : List (Instruction limit)) = stream := rfl

@[simp] theorem after_cons (stream : Option ℕ) (i : Instruction limit)
    (is : List (Instruction limit)) :
    after stream (i :: is) = after (next stream i.values) is := rfl

@[simp] theorem after_append (stream : Option ℕ) (is js : List (Instruction limit)) :
    after stream (is ++ js) = after (after stream is) js := by
  simp [after]

/-- Whatever is allowed and not a `blob` may have any arguments. -/
theorem violates_eq_false {opcode : Bytes} (hmem : opcode ∈ allowlist) (hblob : opcode ≠ ascii "blob")
    (stream : Option ℕ) (args : List Bytes) : violates stream (opcode :: args) = false := by
  simp [violates, hmem, hblob]

/-- Only allowed instructions open or close a stream. -/
theorem next_of_violates {stream : Option ℕ} {vs : List Bytes} (h : violates stream vs = true) :
    next stream vs = stream := by
  match vs with
  | [] => rfl
  | [_] => rfl
  | opcode :: index :: args =>
    have hclip : opcode ≠ ascii "clipboard" := by
      rintro rfl
      simp [violates_eq_false (by decide : ascii "clipboard" ∈ allowlist) (by decide)] at h
    have hend : opcode ≠ ascii "end" := by
      rintro rfl
      simp [violates_eq_false (by decide : ascii "end" ∈ allowlist) (by decide)] at h
    simp [next, hclip, hend]

/-- Denied instructions leave no trace in the policy. -/
theorem after_allowed (stream : Option ℕ) (is : List (Instruction limit)) :
    after stream (allowed stream is) = after stream is := by
  induction is generalizing stream with
  | nil => rfl
  | cons i is ih =>
    simp only [allowed, without] at ih ⊢
    split_ifs with h
    · rw [after_cons, next_of_violates h, ih]
    · rw [after_cons, after_cons, ih]

/-- A violation is not undone by further elements. -/
theorem violates_append {stream : Option ℕ} {vs : List Bytes} (h : violates stream vs = true)
    (ws : List Bytes) : violates stream (vs ++ ws) = true := by
  match vs with
  | [] => simp [violates] at h
  | opcode :: args =>
    simp only [List.cons_append, violates, Bool.or_eq_true, Bool.and_eq_true] at h ⊢
    refine h.imp_right (And.imp_right fun hblob => ?_)
    match args with
    | [] => simp [blobViolates] at hblob
    | [index] => simp [blobViolates] at hblob ⊢; tauto
    | index :: payload :: args => simpa [blobViolates] using hblob

/-- What is allowed keeps to the policy, on its own as well. -/
theorem violates_of_mem_allowed {stream : Option ℕ} {is before rest : List (Instruction limit)}
    {i : Instruction limit} (h : allowed stream is = before ++ i :: rest) :
    violates (after stream before) i.values = false := by
  induction is generalizing stream before with
  | nil => simp [allowed, without] at h
  | cons j is ih =>
    simp only [allowed, without] at h ih
    split_ifs at h with hj
    · rw [next_of_violates hj] at h
      exact ih h
    · cases before with
      | nil =>
        obtain ⟨rfl, -⟩ := List.cons.inj h
        simpa using hj
      | cons b before =>
        obtain ⟨rfl, htail⟩ := List.cons.inj h
        rw [after_cons]
        exact ih htail

theorem allowed_append (stream : Option ℕ) (is js : List (Instruction limit)) :
    allowed stream (is ++ js) = allowed stream is ++ allowed (after stream is) js := by
  induction is generalizing stream with
  | nil => rfl
  | cons i is ih =>
    simp only [allowed, List.cons_append, without, after_cons] at ih ⊢
    rw [ih]
    split_ifs <;> rfl

theorem allowed_allowed (stream : Option ℕ) (is : List (Instruction limit)) :
    allowed stream (allowed stream is) = allowed stream is := by
  induction is generalizing stream with
  | nil => rfl
  | cons i is ih =>
    simp only [allowed, without] at ih ⊢
    split_ifs with hi
    · rw [next_of_violates hi, ih]
    · rw [without, if_neg hi, ih]

/-- Every violation of the policy in a sequence of instructions is of the given kind. -/
def Only (kind : Option ℕ → List Bytes → Bool) (stream : Option ℕ)
    (is : List (Instruction limit)) : Prop :=
  ∀ before i rest, is = before ++ i :: rest →
    violates (after stream before) i.values = true → kind (after stream before) i.values = true

section Only

variable {kind : Option ℕ → List Bytes → Bool} {stream : Option ℕ} {is js : List (Instruction limit)}

theorem Only.left (h : Only kind stream (is ++ js)) : Only kind stream is := by
  rintro before i rest rfl
  exact h before i (rest ++ js) (by simp)

theorem Only.right (h : Only kind stream (is ++ js)) : Only kind (after stream is) js := by
  rintro before i rest rfl hviol
  rw [← after_append] at hviol ⊢
  exact h (is ++ before) i rest (by simp) hviol

theorem Only.head {i : Instruction limit} (h : Only kind stream (i :: is)) :
    violates stream i.values = true → kind stream i.values = true :=
  h [] i is rfl

theorem Only.tail {i : Instruction limit} (h : Only kind stream (i :: is)) :
    Only kind (next stream i.values) is := by
  have hcons : Only kind stream ([i] ++ is) := h
  exact hcons.right

/-- Without the violations of the given kind, everything is allowed. -/
theorem Only.without_eq (h : Only kind stream is)
    (hkind : ∀ st vs, kind st vs = true → violates st vs = true) :
    without kind stream is = allowed stream is := by
  induction is generalizing stream with
  | nil => rfl
  | cons i is ih =>
    have hi : kind stream i.values = violates stream i.values := by
      rw [Bool.eq_iff_iff]
      exact ⟨hkind stream i.values, h.head⟩
    have his := ih h.tail
    simp only [allowed, without] at his ⊢
    rw [hi, his]

end Only

end Policy

namespace GuardMembers

/-- The clipboard stream that the parser considers open. -/
def openStream (m : GuardMembers) : Option ℕ :=
  if m.clipboardSidx < 0 then none else some m.clipboardSidx.toNat

end GuardMembers

namespace GuardOpcodeParser

open Policy

theorem isAllowedOpcode_iff (opcode : Bytes) : isAllowedOpcode opcode = true ↔ opcode ∈ allowlist := by
  constructor
  · intro h
    unfold isAllowedOpcode at h
    split at h <;> simp only [Bool.or_eq_true, beq_iff_eq, Bool.false_eq_true] at h
    · rcases h with (rfl | rfl) | rfl <;> decide
    · rcases h with ((rfl | rfl) | rfl) | rfl <;> decide
    · rcases h with ((rfl | rfl) | rfl) | rfl <;> decide
    all_goals rw [h]; decide
  · have hall : ∀ o ∈ allowlist, isAllowedOpcode o = true := by decide
    exact hall opcode

/-- A number is the open index if and only if it names the open stream. -/
theorem index_ne_iff (m : GuardMembers) (arg : Bytes) :
    (parseStreamIndex arg < 0 ∨ parseStreamIndex arg ≠ m.clipboardSidx) ↔
      (streamIndex arg = none ∨ streamIndex arg ≠ m.openStream) := by
  unfold streamIndex GuardMembers.openStream
  split_ifs <;> simp <;> omega

theorem close_argument (v : Bytes) (m : GuardMembers) :
    hooks.close false v (m, false) = ((onArgument v m).2, !(onArgument v m).1) := rfl

/-- The first argument. -/
theorem onArgument_first {m : GuardMembers} (hcap : m.capNextArg = false) (harg : m.currentArg = 0)
    (v : Bytes) :
    onArgument v m =
      if m.currentOpcode = ascii "clipboard" then
        (true, { m with currentArg := 1, clipboardSidx := parseStreamIndex v })
      else if m.currentOpcode = ascii "blob" then
        if parseStreamIndex v < 0 ∨ parseStreamIndex v ≠ m.clipboardSidx then
          (false, { m with currentArg := 1 })
        else (true, { m with currentArg := 1, capNextArg := true })
      else if m.currentOpcode = ascii "end" ∧ parseStreamIndex v = m.clipboardSidx then
        (true, { m with currentArg := 1, clipboardSidx := -1 })
      else (true, { m with currentArg := 1 }) := by
  rw [onArgument]
  dsimp only
  rw [hcap, harg, if_neg (by simp), if_pos rfl]

/-- The payload of a clipboard blob. -/
theorem onArgument_payload {m : GuardMembers} (hcap : m.capNextArg = true) (v : Bytes) :
    onArgument v m = (decide (v.length ≤ maxClipboardBytes),
      { m with currentArg := m.currentArg + 1, capNextArg := false }) := by
  rw [onArgument]
  dsimp only
  rw [hcap, if_pos rfl]

theorem onArgument_free {m : GuardMembers} (hcap : m.capNextArg = false) (harg : m.currentArg ≠ 0)
    (v : Bytes) : onArgument v m = (true, { m with currentArg := m.currentArg + 1 }) := by
  have hne : ¬m.currentArg + 1 = 1 := by omega
  rw [onArgument]
  dsimp only
  rw [hcap, if_neg (by simp), if_neg hne]

/-- Behind its payload, or without one, an instruction may have any arguments. -/
theorem foldl_free {m : GuardMembers} (hcap : m.capNextArg = false) (harg : m.currentArg ≠ 0)
    (args : List Bytes) :
    let x := args.foldl (fun x v => hooks.close false v x) (m, false)
    x.2 = false ∧ x.1.openStream = m.openStream := by
  induction args generalizing m with
  | nil => exact ⟨rfl, rfl⟩
  | cons v args ih =>
    rw [List.foldl_cons, close_argument, onArgument_free hcap harg]
    exact ih (m := { m with currentArg := m.currentArg + 1 }) hcap (by simp)

theorem foldl_denied (m : GuardMembers) (args : List Bytes) :
    args.foldl (fun x v => hooks.close false v x) (m, true) = (m, true) := by
  induction args with
  | nil => rfl
  | cons v args ih => rw [List.foldl_cons, Hooks.close_of_denied _ _ _ rfl, ih]

/-- The arguments of a `blob`. -/
theorem foldl_blob {m : GuardMembers} (hcap : m.capNextArg = false) (harg : m.currentArg = 0)
    (hop : m.currentOpcode = ascii "blob") (args : List Bytes) :
    let x := args.foldl (fun x v => hooks.close false v x) (m, false)
    x.2 = blobViolates m.openStream args ∧ x.1.openStream = m.openStream := by
  match args with
  | [] => exact ⟨rfl, rfl⟩
  | index :: args =>
    have hclip : m.currentOpcode ≠ ascii "clipboard" := by
      rw [hop]
      decide
    rw [List.foldl_cons, close_argument, onArgument_first hcap harg, if_neg hclip, if_pos hop]
    by_cases hbad : parseStreamIndex index < 0 ∨ parseStreamIndex index ≠ m.clipboardSidx
    · -- a blob on another stream
      rw [if_pos hbad]
      rw [index_ne_iff] at hbad
      simp only [Bool.not_false, foldl_denied]
      refine ⟨?_, rfl⟩
      simp [blobViolates, hbad]
    · rw [if_neg hbad]
      rw [index_ne_iff, not_or, not_not] at hbad
      obtain ⟨hindex, hstream⟩ := hbad
      have hbad : blobViolates m.openStream [index] = false := by
        rw [← hstream]
        simp [blobViolates, hindex]
      simp only [Bool.not_true]
      match args with
      | [] => exact ⟨hbad.symm, rfl⟩
      | payload :: args =>
        rw [List.foldl_cons, close_argument,
          onArgument_payload (m := { m with currentArg := 1, capNextArg := true }) rfl]
        have hviol : blobViolates m.openStream (index :: payload :: args) =
            decide (maxClipboardBytes < payload.length) := by
          rw [← hstream]
          simp [blobViolates, hindex]
        rw [hviol]
        by_cases hlong : payload.length ≤ maxClipboardBytes
        · simp only [hlong, Nat.not_lt.mpr hlong, decide_true, decide_false, Bool.not_true]
          exact foldl_free rfl (by simp) args
        · simp only [hlong, Nat.lt_of_not_le hlong, decide_true, decide_false, Bool.not_false,
            foldl_denied]
          exact ⟨trivial, rfl⟩

/-- The arguments of any other instruction. -/
theorem foldl_other {m : GuardMembers} (hcap : m.capNextArg = false) (harg : m.currentArg = 0)
    (hop : m.currentOpcode ≠ ascii "blob") (args : List Bytes) :
    let x := args.foldl (fun x v => hooks.close false v x) (m, false)
    x.2 = false ∧ x.1.openStream = next m.openStream (m.currentOpcode :: args) := by
  match args with
  | [] => exact ⟨rfl, rfl⟩
  | index :: args =>
    rw [List.foldl_cons, close_argument, onArgument_first hcap harg, if_neg hop, next]
    by_cases hclip : m.currentOpcode = ascii "clipboard"
    · rw [if_pos hclip, if_pos hclip]
      exact foldl_free (m := { m with currentArg := 1, clipboardSidx := parseStreamIndex index })
        hcap (by simp) args
    · rw [if_neg hclip, if_neg hclip]
      by_cases hend : m.currentOpcode = ascii "end" ∧ parseStreamIndex index = m.clipboardSidx
      · have hsame : streamIndex index = m.openStream := by
          rw [streamIndex, GuardMembers.openStream, hend.2]
        rw [if_pos hend, if_pos ⟨hend.1, hsame⟩]
        exact foldl_free (m := { m with currentArg := 1, clipboardSidx := -1 }) hcap (by simp) args
      · have hkeep : (if m.currentOpcode = ascii "end" ∧ streamIndex index = m.openStream then none
            else m.openStream) = m.openStream := by
          split_ifs with h
          · -- an index that is not clean closes nothing, for nothing is open
            have hne : parseStreamIndex index < 0 ∨ parseStreamIndex index ≠ m.clipboardSidx :=
              .inr fun heq => hend ⟨h.1, heq⟩
            rcases (index_ne_iff m index).mp hne with hnone | hdiff
            · rw [← h.2, hnone]
            · exact absurd h.2 hdiff
          · rfl
        rw [if_neg hend, hkeep]
        exact foldl_free (m := { m with currentArg := 1 }) hcap (by simp) args

/-- The verdict of the hooks on the elements received so far is that of the policy, and
they keep track of the open stream. -/
theorem judge_eq (m : GuardMembers) (vs : List Bytes) :
    (hooks.judge m vs).2 = violates m.openStream vs ∧
      (hooks.judge m vs).1.openStream = next m.openStream vs := by
  match vs with
  | [] => exact ⟨rfl, rfl⟩
  | opcode :: args =>
    have hbegin : hooks.judge m (opcode :: args) =
        args.foldl (fun x v => hooks.close false v x)
          ({ m with currentOpcode := opcode, currentArg := 0, capNextArg := false },
            !isAllowedOpcode opcode) := rfl
    rw [hbegin]
    by_cases hmem : opcode ∈ allowlist
    · rw [(isAllowedOpcode_iff opcode).mpr hmem, Bool.not_true]
      by_cases hblob : opcode = ascii "blob"
      · have hviol : violates m.openStream (opcode :: args) = blobViolates m.openStream args := by
          subst hblob
          simp [violates, hmem]
        have hnext : next m.openStream (opcode :: args) = m.openStream := by
          have hclip : ascii "blob" ≠ ascii "clipboard" := by decide
          have hend : ascii "blob" ≠ ascii "end" := by decide
          cases args <;> simp [next, hblob, hclip, hend]
        rw [hviol, hnext]
        exact foldl_blob rfl rfl hblob args
      · rw [violates_eq_false hmem hblob]
        exact foldl_other rfl rfl hblob args
    · have hviol : violates m.openStream (opcode :: args) = true := by simp [violates, hmem]
      have hden : isAllowedOpcode opcode = false := by
        simpa using fun h => hmem ((isAllowedOpcode_iff opcode).mp h)
      rw [hden, Bool.not_false, foldl_denied, hviol, next_of_violates hviol]
      exact ⟨rfl, rfl⟩

theorem denies_eq (m : GuardMembers) (i : Instruction maxElementSize) :
    hooks.denies m i = violates m.openStream i.values := by
  rw [Hooks.denies, seen_eq_map le_rfl]
  exact (judge_eq m i.values).1

theorem openStream_after (m : GuardMembers) (i : Instruction maxElementSize) :
    (hooks.after m i).openStream = next m.openStream i.values := by
  have h := (judge_eq m i.values).2
  rw [Instruction.values, ← seen_eq_map le_rfl] at h ⊢
  rw [← h, Hooks.after]
  split_ifs <;> rfl

theorem openStream_afterAll (m : GuardMembers) (is : List (Instruction maxElementSize)) :
    (hooks.afterAll m is).openStream = Policy.after m.openStream is := by
  induction is generalizing m with
  | nil => rfl
  | cons i is ih => rw [Hooks.afterAll_cons, ih, openStream_after, after_cons]

theorem survivors_eq (m : GuardMembers) (is : List (Instruction maxElementSize)) :
    hooks.survivors m is = allowed m.openStream is := by
  induction is generalizing m with
  | nil => rfl
  | cons i is ih =>
    rw [Hooks.survivors, ih, denies_eq, openStream_after]
    rfl

theorem judge_closed (m : GuardMembers) (is : List (Instruction maxElementSize))
    (cur : Cursor maxElementSize) :
    (hooks.judge (hooks.afterAll m is) (seen cur.closed)).2 =
      violates (Policy.after m.openStream is) cur.values := by
  rw [seen_eq_map le_rfl, (judge_eq _ _).1, openStream_afterAll]
  rfl

theorem stationary : hooks.Stationary := fun _ _ => rfl

/-- A fresh parser has received nothing. -/
theorem session_fresh : OpcodeParser.Session hooks {} (.start : Cursor maxElementSize) fresh :=
  ⟨OpcodeParser.tracks_start ({} : GuardMembers), rfl⟩

end GuardOpcodeParser

end GuacamoleDiode
