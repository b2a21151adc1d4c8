import GuacamoleDiode.Guard.Filter

/-!
# What passes through the clipboard

Two properties of the payload that crosses the guard on streams. The guard remembers one
clipboard stream and forgets it on its `end`; it does not notice that another instruction
opens a stream under the same index. And it bounds each `blob` on its own, behind the
delimiter of the payload, but not the number of blobs on a stream.
-/

namespace GuacamoleDiode

open Wire Policy

namespace GuardOpcodeParser

/-- The pieces hold whole instructions and the beginning of one, and no denied instruction
straddles. -/
def Accepted (pieces : List Bytes) (is : List (Instruction maxElementSize))
    (cur : Cursor maxElementSize) : Prop :=
  pieces.flatten = wire is ++ cur.bytes ∧ ¬Straddles pieces is cur

theorem exists_accepted_iff {pieces : List Bytes} :
    (∃ is cur, Accepted pieces is cur) ↔ (filter pieces).2 ≠ none := by
  constructor
  · rintro ⟨is, cur, hw, hno⟩ hnone
    exact hno ((filter_eq hw).1.mp hnone)
  · intro hne
    cases hr : (Cursor.start : Cursor maxElementSize).read pieces.flatten with
    | some r =>
      have hw := Cursor.read_start_eq_some_iff.mp hr
      exact ⟨r.1, r.2, hw, fun hs => hne ((filter_eq hw).1.mpr hs)⟩
    | none =>
      obtain ⟨pre, -, -, -, -, -, -, -, hfilter⟩ := filter_offending hr
      exact absurd (congrArg Prod.snd hfilter) hne

/-- The filter passes on what it makes of the longest part of the stream without corruption. -/
theorem exists_longest (pieces : List Bytes) :
    ∃ pre, pre <+: pieces ∧ (filter pre).2 ≠ none ∧ (filter pieces).1 = (filter pre).1 ∧
      ∀ pre', pre' <+: pieces → (filter pre').2 ≠ none → pre' <+: pre := by
  induction pieces using List.reverseRecOn with
  | nil => exact ⟨[], List.prefix_rfl, by simp [filter, OpcodeParser.cleanseAll], rfl, fun _ h _ => h⟩
  | append_singleton pieces d ih =>
    obtain ⟨pre, hpre, hne, hout, hmax⟩ := ih
    -- a longer part is either this one or no longer than before
    have hcases : ∀ pre', pre' <+: pieces ++ [d] → pre' = pieces ++ [d] ∨ pre' <+: pieces :=
      fun pre' h => List.prefix_concat_iff.mp h
    cases hp : (filter pieces).2 with
    | none =>
      have hsame : filter (pieces ++ [d]) = filter pieces := OpcodeParser.cleanseAll_append_of_none hp
      refine ⟨pre, hpre.trans (List.prefix_append _ _), hne, by rw [hsame, hout], ?_⟩
      intro pre' h hok
      rcases hcases pre' h with rfl | h
      · rw [hsame] at hok
        exact absurd hp hok
      · exact hmax pre' h hok
    | some p =>
      have hsplit : filter (pieces ++ [d]) =
          ((filter pieces).1 ++ (p.cleanseAll hooks [d]).1, (p.cleanseAll hooks [d]).2) :=
        OpcodeParser.cleanseAll_append_of_some hp
      cases hc : p.cleanse hooks d with
      | none =>
        rw [OpcodeParser.cleanseAll_cons_none hc] at hsplit
        refine ⟨pieces, List.prefix_append _ _, by simp [hp], ?_, ?_⟩
        · exact (congrArg Prod.fst hsplit).trans (List.append_nil _)
        · intro pre' h hok
          rcases hcases pre' h with rfl | h
          · exact absurd (congrArg Prod.snd hsplit) hok
          · exact h
      | some r =>
        refine ⟨pieces ++ [d], List.prefix_rfl, ?_, rfl, fun _ h _ => h⟩
        rw [hsplit, OpcodeParser.cleanseAll_cons_some hc]
        simp [OpcodeParser.cleanseAll]

/-- What the guard passes on of a stream, and the part of the stream it comes from. -/
theorem filter_accepted (pieces : List Bytes) :
    ∃ pre is cur, pre <+: pieces ∧ Accepted pre is cur ∧
      (filter pieces).1.flatten = wire (allowed none is) ++ cur.bytes ∧
      ∀ pre' is' cur', pre' <+: pieces → Accepted pre' is' cur' → is' <+: is := by
  obtain ⟨pre, hpre, hne, hout, hmax⟩ := exists_longest pieces
  obtain ⟨is, cur, hacc⟩ := exists_accepted_iff.mpr hne
  refine ⟨pre, is, cur, hpre, hacc, ?_, ?_⟩
  · rw [hout]
    exact (filter_eq hacc.1).2 hne
  · intro pre' is' cur' hpre' hacc'
    obtain ⟨rest, hrest⟩ := hmax pre' hpre' (exists_accepted_iff.mp ⟨is', cur', hacc'⟩)
    have hr := Cursor.read_start_eq_some_iff.mpr hacc.1
    rw [← hrest, List.flatten_append, hacc'.1,
      Cursor.read_append_of_eq_some (Cursor.read_wire_append_bytes is' cur'),
      Option.map_eq_some_iff] at hr
    obtain ⟨x, -, hx⟩ := hr
    exact ⟨x.1, congrArg Prod.fst hx⟩

end GuardOpcodeParser

namespace Policy

variable {limit : ℕ}

/-- The allowed opcodes other than `clipboard` that open the stream in their first argument. -/
def openers : List Bytes := ["argv", "audio", "video"].map ascii

/-- The elements open or end stream `n`. -/
def touches (n : ℕ) : List Bytes → Bool
  | opcode :: index :: _ =>
    (opcode = ascii "clipboard" || opcode = ascii "end" || openers.contains opcode) &&
      streamIndex index = some n
  | _ => false

/-- The last of some instructions to open or end stream `n`. -/
def lastTouch (n : ℕ) (is : List (Instruction limit)) : Option (Instruction limit) :=
  (is.filter fun i => touches n i.values).getLast?

/-- Every whole `blob` in the stream names a stream that the last instruction to open or
end it has opened as a clipboard. -/
def ClipboardOnly (limit : ℕ) (w : Bytes) : Prop :=
  ∃ (is : List (Instruction limit)) (cur : Cursor limit), w = wire is ++ cur.bytes ∧
    ∀ before i rest, is = before ++ i :: rest → i.opcode = ascii "blob" →
      ∃ index args n opener, i.values = ascii "blob" :: index :: args ∧
        streamIndex index = some n ∧ lastTouch n before = some opener ∧
        opener.opcode = ascii "clipboard"

/-- Whether the open clipboard stream has been opened again as another one. -/
def reopened (stream : Option ℕ) (flag : Bool) : List Bytes → Bool
  | opcode :: index :: _ =>
    if opcode = ascii "clipboard" then false
    else if opcode ∈ openers ∧ streamIndex index = stream then true
    else flag
  | _ => flag

/-- No `blob` that the policy allows lacks its index, and none comes on a clipboard stream
that has been opened again as another one. -/
def Unmixed (stream : Option ℕ) (flag : Bool) : List (Instruction limit) → Prop
  | [] => True
  | i :: is =>
    (i.opcode = ascii "blob" → violates stream i.values = false →
      flag = false ∧ ∃ index args, i.values = ascii "blob" :: index :: args) ∧
    Unmixed (next stream i.values) (reopened stream flag i.values) is

/-- What the memory of the policy says about the instructions before. -/
def Tracked (stream : Option ℕ) (flag : Bool) (before : List (Instruction limit)) : Prop :=
  ∀ n, stream = some n → ∃ opener, lastTouch n before = some opener ∧
    (opener.opcode = ascii "clipboard" ↔ flag = false)

theorem Unmixed.left {stream : Option ℕ} {flag : Bool} {is js : List (Instruction limit)}
    (h : Unmixed stream flag (is ++ js)) : Unmixed stream flag is := by
  induction is generalizing stream flag with
  | nil => trivial
  | cons i is ih => exact ⟨h.1, ih h.2⟩

theorem lastTouch_snoc (n : ℕ) (before : List (Instruction limit)) (i : Instruction limit) :
    lastTouch n (before ++ [i]) = if touches n i.values then some i else lastTouch n before := by
  by_cases h : touches n i.values = true
  · simp [lastTouch, h]
  · simp [lastTouch, h]

theorem touches_iff {n : ℕ} {opcode index : Bytes} {args : List Bytes} :
    touches n (opcode :: index :: args) = true ↔
      (opcode = ascii "clipboard" ∨ opcode = ascii "end" ∨ opcode ∈ openers) ∧
        streamIndex index = some n := by
  simp [touches, or_assoc]

/-- An instruction that is passed on. -/
theorem Tracked.snoc {stream : Option ℕ} {flag : Bool} {before : List (Instruction limit)}
    (h : Tracked stream flag before) (i : Instruction limit) :
    Tracked (next stream i.values) (reopened stream flag i.values) (before ++ [i]) := by
  intro n hn
  rw [lastTouch_snoc]
  obtain ⟨args, hvals⟩ := i.values_eq_cons
  rw [hvals] at hn ⊢
  cases args with
  | nil => exact h n hn
  | cons index args =>
    simp only [next, reopened] at hn ⊢
    by_cases hclip : i.opcode = ascii "clipboard"
    · rw [if_pos hclip] at hn ⊢
      refine ⟨i, if_pos (touches_iff.mpr ⟨.inl hclip, hn⟩), by simp [hclip]⟩
    rw [if_neg hclip] at hn ⊢
    by_cases hend : i.opcode = ascii "end"
    · have hopener : i.opcode ∉ openers := by
        rw [hend]
        decide
      split_ifs at hn with hclose
      have hother : streamIndex index ≠ some n := fun heq => hclose ⟨hend, heq.trans hn.symm⟩
      rw [if_neg fun ht => hother (touches_iff.mp ht).2, if_neg fun hr => hopener hr.1]
      exact h n hn
    · rw [if_neg fun hr => hend hr.1] at hn
      by_cases hopener : i.opcode ∈ openers ∧ streamIndex index = stream
      · rw [if_pos hopener]
        exact ⟨i, if_pos (touches_iff.mpr ⟨.inr (.inr hopener.1), hopener.2.trans hn⟩),
          by simp [hclip]⟩
      · have hother : ¬touches n (i.opcode :: index :: args) = true := by
          rw [touches_iff, ← hn]
          rintro ⟨hc | he | ho, hidx⟩
          · exact hclip hc
          · exact hend he
          · exact hopener ⟨ho, hidx⟩
        rw [if_neg hopener, if_neg hother]
        exact h n hn

/-- An instruction that is denied leaves no trace. -/
theorem reopened_of_violates {stream : Option ℕ} {vs : List Bytes} (h : violates stream vs = true)
    (flag : Bool) : reopened stream flag vs = flag := by
  match vs with
  | [] => rfl
  | [_] => rfl
  | opcode :: index :: args =>
    have hclip : opcode ≠ ascii "clipboard" := by
      rintro rfl
      simp [violates_eq_false (by decide : ascii "clipboard" ∈ allowlist) (by decide)] at h
    have hopener : opcode ∉ openers := by
      intro hmem
      have hall : ∀ o ∈ openers, o ∈ allowlist ∧ o ≠ ascii "blob" := by decide
      simp [violates_eq_false (hall opcode hmem).1 (hall opcode hmem).2] at h
    simp [reopened, hclip, hopener]

/-- What the last touch of the stream of an allowed `blob` was. -/
theorem Tracked.blob {stream : Option ℕ} {flag : Bool} {before : List (Instruction limit)}
    (h : Tracked stream flag before) {i : Instruction limit} (hblob : i.opcode = ascii "blob")
    (hok : violates stream i.values = false) :
    (flag = false ∧ ∃ index args, i.values = ascii "blob" :: index :: args) ↔
      ∃ index args n opener, i.values = ascii "blob" :: index :: args ∧
        streamIndex index = some n ∧ lastTouch n before = some opener ∧
        opener.opcode = ascii "clipboard" := by
  obtain ⟨args, hvals⟩ := i.values_eq_cons
  rw [hblob] at hvals
  rw [hvals] at hok ⊢
  cases args with
  | nil => simp
  | cons index args =>
    have hindex : streamIndex index ≠ none ∧ streamIndex index = stream := by
      simp [violates, blobViolates] at hok
      exact ⟨hok.2.1.1, hok.2.1.2⟩
    obtain ⟨n, hn⟩ := Option.ne_none_iff_exists'.mp hindex.1
    obtain ⟨opener, hlast, hiff⟩ := h n (hindex.2.symm.trans hn)
    constructor
    · rintro ⟨hflag, -⟩
      exact ⟨index, args, n, opener, rfl, hn, hlast, hiff.mpr hflag⟩
    · rintro ⟨_, _, n', opener', heq, hn', hlast', hclip⟩
      obtain ⟨-, rfl, rfl⟩ : ascii "blob" = ascii "blob" ∧ _ ∧ _ := by simpa using heq
      obtain rfl : n = n' := Option.some.inj (hn.symm.trans hn')
      obtain rfl : opener = opener' := Option.some.inj (hlast.symm.trans hlast')
      exact ⟨hiff.mp hclip, index, args, rfl⟩

/-- The condition on what comes in is the property of what is passed on. -/
theorem Tracked.unmixed_iff {stream : Option ℕ} {flag : Bool} {before : List (Instruction limit)}
    (h : Tracked stream flag before) (is : List (Instruction limit)) :
    Unmixed stream flag is ↔
      ∀ front i rest, allowed stream is = front ++ i :: rest → i.opcode = ascii "blob" →
        ∃ index args n opener, i.values = ascii "blob" :: index :: args ∧
          streamIndex index = some n ∧ lastTouch n (before ++ front) = some opener ∧
          opener.opcode = ascii "clipboard" := by
  induction is generalizing stream flag before with
  | nil => simp [Unmixed, allowed, without]
  | cons i is ih =>
    rw [Unmixed]
    cases hviol : violates stream i.values with
    | true =>
      have hih := ih h
      rw [reopened_of_violates hviol, next_of_violates hviol, hih]
      simp [allowed, without, hviol, next_of_violates hviol]
    | false =>
      have hall : allowed stream (i :: is) = i :: allowed (next stream i.values) is := by
        simp [allowed, without, hviol]
      rw [hall, ih (h.snoc i)]
      constructor
      · rintro ⟨hhead, htail⟩ front j rest heq hblob
        cases front with
        | nil =>
          obtain ⟨rfl, -⟩ := List.cons.inj heq
          rw [List.append_nil]
          exact (h.blob hblob hviol).mp (hhead hblob rfl)
        | cons a front =>
          obtain ⟨rfl, hrest⟩ := List.cons.inj heq
          simpa using htail front j rest hrest hblob
      · intro hall
        refine ⟨fun hblob _ => (h.blob hblob hviol).mpr ?_, fun front j rest heq hblob => ?_⟩
        · simpa using hall [] i _ rfl hblob
        · simpa using hall (i :: front) j rest (by rw [heq]; rfl) hblob

end Policy

namespace GuardOpcodeParser

/-- Only clipboard streams carry payload in what the guard passes on, if and only if what it
accepts has no allowed `blob` without an index and none on a clipboard stream that has
been opened again as another one. -/
theorem clipboardOnly_iff (pieces : List Bytes) :
    ClipboardOnly maxElementSize (filter pieces).1.flatten ↔
      ∀ pre is cur, pre <+: pieces → Accepted pre is cur → Unmixed none false is := by
  obtain ⟨pre, is, cur, hpre, hacc, hout, hlongest⟩ := filter_accepted pieces
  have hfresh : Tracked none false ([] : List (Instruction maxElementSize)) := by
    rintro n ⟨⟩
  rw [hout]
  constructor
  · rintro ⟨js, cur', hw, hblobs⟩ pre' is' cur'' hpre' hacc'
    obtain ⟨rfl, -⟩ := Cursor.split_unique hw
    obtain ⟨rest, rfl⟩ := hlongest pre' is' cur'' hpre' hacc'
    exact ((hfresh.unmixed_iff _).mpr hblobs).left
  · intro h
    exact ⟨allowed none is, cur, rfl, (hfresh.unmixed_iff is).mp (h pre is cur hpre hacc)⟩

/-- A clipboard stream that is opened again as an argument stream. -/
def reopening : List (Instruction maxElementSize) :=
  [.ofValues [ascii "clipboard", ascii "2", ascii "text/plain"] (by decide) (by decide +kernel),
    .ofValues [ascii "argv", ascii "2", ascii "text/plain", ascii "font-name"] (by decide)
      (by decide +kernel),
    .ofValues [ascii "blob", ascii "2", ascii "bW9ubw=="] (by decide) (by decide +kernel)]

/-- The payload of the argument stream is passed on. -/
theorem not_clipboardOnly_reopening :
    (filter [wire reopening]).1.flatten = wire reopening ∧
      ¬ClipboardOnly maxElementSize (filter [wire reopening]).1.flatten := by
  have hout : (filter [wire reopening]).1.flatten = wire reopening := by decide +kernel
  refine ⟨hout, ?_⟩
  rw [hout]
  rintro ⟨is, cur, hw, hblobs⟩
  have hsplit : wire reopening ++ (Cursor.start : Cursor maxElementSize).bytes =
      wire is ++ cur.bytes := by
    rw [← hw]
    simp
  obtain ⟨rfl, -⟩ := Cursor.split_unique hsplit
  obtain ⟨index, args, n, opener, hvals, hn, hlast, hclip⟩ :=
    hblobs (reopening.take 2) _ [] rfl (by decide)
  obtain ⟨rfl, -⟩ : ascii "2" = index ∧ _ := by simpa [reopening] using hvals
  obtain rfl : 2 = n := Option.some.inj ((by decide : some 2 = streamIndex (ascii "2")).trans hn)
  have hargv : (lastTouch 2 (reopening.take 2)).map Instruction.opcode = some (ascii "argv") := by
    decide
  rw [hlast] at hargv
  exact absurd (hclip.symm.trans (Option.some.inj hargv)) (by decide)

end GuardOpcodeParser

namespace Policy

variable {limit : ℕ}

/-- The payload among the elements of an instruction. -/
def payload : List Bytes → Bytes
  | opcode :: _ :: data :: _ => if opcode = ascii "blob" then data else []
  | _ => []

/-- The payload bytes of some instructions. -/
def volume : List (Instruction limit) → ℕ
  | [] => 0
  | i :: is => (payload i.values).length + volume is

/-- The number of blobs among some instructions. -/
def blobs (is : List (Instruction limit)) : ℕ := is.countP fun i => i.opcode = ascii "blob"

/-- The elements end the stream that the elements of a `clipboard` open. -/
def ends (opened : List Bytes) : List Bytes → Bool
  | opcode :: index :: _ =>
    opcode = ascii "end" && (opened.tail.head?.map streamIndex = some (streamIndex index))
  | _ => false

/-- Between a `clipboard` and what follows stands neither another one nor the `end` of its
stream. -/
def Paste (is paste rest : List (Instruction limit)) : Prop :=
  ∃ before opener, is = before ++ opener :: (paste ++ rest) ∧
    opener.opcode = ascii "clipboard" ∧
    ∀ i ∈ paste, i.opcode ≠ ascii "clipboard" ∧ ends opener.values i.values = false

/-- An instruction that is passed on carries at most the cap. -/
theorem length_payload_le {stream : Option ℕ} {vs : List Bytes} (h : violates stream vs = false) :
    (payload vs).length ≤ maxClipboardBytes := by
  match vs with
  | [] | [_] | [_, _] => exact Nat.zero_le _
  | opcode :: index :: data :: args =>
    by_cases hblob : opcode = ascii "blob"
    · simp [violates, blobViolates, hblob] at h
      simpa [payload, hblob] using h.2.2
    · simp [payload, hblob]

theorem volume_le {is : List (Instruction limit)}
    (h : ∀ i ∈ is, (payload i.values).length ≤ maxClipboardBytes) :
    volume is ≤ blobs is * maxClipboardBytes := by
  induction is with
  | nil => exact le_rfl
  | cons i is ih =>
    have htail := ih fun j hj => h j (List.mem_cons_of_mem i hj)
    have hhead := h i List.mem_cons_self
    have hvol : volume (i :: is) = (payload i.values).length + volume is := rfl
    rw [hvol]
    by_cases hblob : i.opcode = ascii "blob"
    · have hcount : blobs (i :: is) = blobs is + 1 := by simp [blobs, hblob]
      rw [hcount, Nat.add_mul, Nat.one_mul]
      omega
    · have hcount : blobs (i :: is) = blobs is := by simp [blobs, hblob]
      have hnone : payload i.values = [] := by
        obtain ⟨args, hvals⟩ := i.values_eq_cons
        rw [hvals]
        match args with
        | [] | [_] => rfl
        | _ :: _ :: _ => simp [payload, hblob]
      rw [hcount, hnone, List.length_nil, Nat.zero_add]
      exact htail

end Policy

namespace GuardOpcodeParser

/-- What the guard passes on between a `clipboard` and the next one or the `end` of its stream
holds at most the cap for every complete `blob`. -/
theorem paste_bounded (pieces : List Bytes) (is : List (Instruction maxElementSize))
    (cur : Cursor maxElementSize) (hout : (filter pieces).1.flatten = wire is ++ cur.bytes)
    (paste rest : List (Instruction maxElementSize)) (hpaste : Paste is paste rest) :
    (∀ i ∈ paste, (payload i.values).length ≤ maxClipboardBytes) ∧
      volume paste ≤ blobs paste * maxClipboardBytes := by
  obtain ⟨pre, js, cur', -, -, hfwd, -⟩ := filter_accepted pieces
  obtain ⟨rfl, rfl⟩ := Cursor.split_unique (hfwd.symm.trans hout)
  obtain ⟨before, opener, hsplit, -, -⟩ := hpaste
  have heach : ∀ i ∈ paste, (payload i.values).length ≤ maxClipboardBytes := by
    intro i hi
    obtain ⟨front, back, rfl⟩ := List.append_of_mem hi
    have hmem : allowed none js = (before ++ opener :: front) ++ i :: (back ++ rest) := by
      rw [hsplit]
      simp
    exact length_payload_le (violates_of_mem_allowed hmem)
  exact ⟨heach, volume_le heach⟩

/-- A clipboard stream with two pastes of 60 characters. -/
def pastes : List (Instruction maxElementSize) :=
  [.ofValues [ascii "clipboard", ascii "1", ascii "text/plain"] (by decide) (by decide +kernel),
    .ofValues [ascii "blob", ascii "1", List.replicate 60 66] (by decide) (by decide +kernel),
    .ofValues [ascii "blob", ascii "1", List.replicate 60 67] (by decide) (by decide +kernel)]

theorem paste_pastes : Paste pastes pastes.tail [] := by
  refine ⟨[], _, rfl, by decide, ?_⟩
  decide

theorem filter_pastes : (filter [wire pastes]).1.flatten =
    wire pastes ++ (Cursor.start : Cursor maxElementSize).bytes := by
  decide +kernel

/-- The two pastes stay within the bound for two blobs. -/
theorem paste_bounded_pastes :
    (filter [wire pastes]).1.flatten =
        wire pastes ++ (Cursor.start : Cursor maxElementSize).bytes ∧
      Paste pastes pastes.tail [] ∧ volume pastes.tail ≤ blobs pastes.tail * maxClipboardBytes :=
  ⟨filter_pastes, paste_pastes,
    (paste_bounded [wire pastes] pastes .start filter_pastes pastes.tail [] paste_pastes).2⟩

/-- Together they exceed the cap. -/
theorem volume_pastes_exceeds :
    (∀ d ∈ [wire pastes], d.length ≤ Multiplexer.maxPayloadSize) ∧
      (filter [wire pastes]).1.flatten =
        wire pastes ++ (Cursor.start : Cursor maxElementSize).bytes ∧
      Paste pastes pastes.tail [] ∧ maxClipboardBytes < volume pastes.tail :=
  ⟨by decide +kernel, filter_pastes, paste_pastes, by decide +kernel⟩

end GuardOpcodeParser

end GuacamoleDiode
