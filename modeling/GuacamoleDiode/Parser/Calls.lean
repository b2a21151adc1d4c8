import GuacamoleDiode.Parser.Tracking
import GuacamoleDiode.Parser.Excise

/-!
# What one parse call does

A call starts with some part of an instruction already received (`cur₀`) and
reads a piece of the stream. `InCall` is the invariant of the byte loop: it
couples the members and locals to the instructions that the piece has completed
and to the instruction in progress. From it follows what the call returns: the
piece is rejected when it leaves the grammar, when it denies an instruction whose
head went by in an earlier call, or when it ends inside a denied instruction;
otherwise the recorded ranges are exactly the denied instructions.
-/

namespace GuacamoleDiode

open Wire Ranges

variable {σ : Type} {limit : ℕ}

namespace Hooks

/-- The hooks deny the instruction. -/
def denies (H : Hooks σ) (s : σ) (i : Instruction limit) : Bool := (H.judge s (seen i.elements)).2

/-- The members of the subclass behind an instruction. The base does not announce the
end of a denied instruction. -/
def after (H : Hooks σ) (s : σ) (i : Instruction limit) : σ :=
  let x := H.judge s (seen i.elements)
  if x.2 then x.1 else H.onInstructionEnd 0 x.1

/-- The members of the subclass behind a sequence of instructions. -/
def afterAll (H : Hooks σ) (s : σ) (is : List (Instruction limit)) : σ := is.foldl H.after s

/-- The instructions that are not denied. -/
def survivors (H : Hooks σ) : σ → List (Instruction limit) → List (Instruction limit)
  | _, [] => []
  | s, i :: is =>
    if H.denies s i then survivors H (H.after s i) is else i :: survivors H (H.after s i) is

/-- The hooks deny nothing. -/
structure Allows (H : Hooks σ) : Prop where
  opcode : ∀ v s, (H.onInstructionBegin v s).1 = true
  argument : ∀ v s, (H.onArgument v s).1 = true

/-- The hooks do not ask for the index of the byte being processed. -/
def Stationary (H : Hooks σ) : Prop := ∀ i s, H.onInstructionEnd i s = H.onInstructionEnd 0 s

theorem after_of_denied {H : Hooks σ} {s m : σ} {i : Instruction limit}
    (h : H.judge s (seen i.elements) = (m, true)) : H.after s i = m := by
  simp [after, h]

theorem after_of_allowed {H : Hooks σ} {s m : σ} {i : Instruction limit}
    (h : H.judge s (seen i.elements) = (m, false)) : H.after s i = H.onInstructionEnd 0 m := by
  simp [after, h]

@[simp] theorem afterAll_nil (H : Hooks σ) (s : σ) :
    H.afterAll s ([] : List (Instruction limit)) = s := rfl

@[simp] theorem afterAll_cons (H : Hooks σ) (s : σ) (i : Instruction limit)
    (is : List (Instruction limit)) : H.afterAll s (i :: is) = H.afterAll (H.after s i) is := rfl

@[simp] theorem afterAll_append (H : Hooks σ) (s : σ) (is js : List (Instruction limit)) :
    H.afterAll s (is ++ js) = H.afterAll (H.afterAll s is) js := by
  simp [afterAll]

@[simp] theorem survivors_append (H : Hooks σ) (s : σ) (is js : List (Instruction limit)) :
    H.survivors s (is ++ js) = H.survivors s is ++ H.survivors (H.afterAll s is) js := by
  induction is generalizing s with
  | nil => rfl
  | cons i is ih =>
    simp only [List.cons_append, survivors, afterAll_cons, ih]
    split <;> rfl

theorem survivors_sublist (H : Hooks σ) (s : σ) (is : List (Instruction limit)) :
    (H.survivors s is).Sublist is := by
  induction is generalizing s with
  | nil => exact List.Sublist.slnil
  | cons i is ih =>
    rw [survivors]
    split_ifs
    · exact (ih _).cons i
    · exact (ih _).cons_cons i

/-- A piece that completes `is` and ends inside `cur` cannot be cut cleanly: it denies the
instruction that `cur₀` has begun in an earlier call, or ends inside a denied one. -/
def Cuts (H : Hooks σ) (s : σ) (cur₀ : Cursor limit) (is : List (Instruction limit))
    (cur : Cursor limit) : Prop :=
  (cur₀.bytes ≠ [] ∧ ∃ i ∈ is.head?, H.denies s i = true) ∨
    (H.judge (H.afterAll s is) (seen cur.closed)).2 = true

/-- A denial among the closed elements of the carried instruction is final. -/
theorem cuts_of_closed_denied {H : Hooks σ} {s : σ} {cur₀ cur cur' : Cursor limit} {w : Bytes}
    {is : List (Instruction limit)} (hne : cur₀.bytes ≠ [])
    (hden : (H.judge s (seen cur.closed)).2 = true) (hr : cur.read w = some (is, cur')) :
    H.Cuts s cur₀ is cur' := by
  rcases Cursor.closed_read hr with ⟨rfl, es, hes⟩ | ⟨i, hi, es, hes⟩
  · right
    rw [← hes, seen_append]
    exact H.judge_denied_append s _ hden
  · refine .inl ⟨hne, i, hi, ?_⟩
    rw [denies, ← hes, seen_append]
    exact H.judge_denied_append s _ hden

end Hooks

namespace OpcodeParser

/-- Between two calls: the parser stands inside the instruction that `cur` has begun,
its hooks have seen the closed elements from the members `s` on and denied none. -/
structure Session (H : Hooks σ) (s : σ) (cur : Cursor limit) (p : OpcodeParser σ) : Prop where
  tracks : p.Tracks cur
  judged : H.judge s (seen cur.closed) = (p.members, false)

/-- The byte loop has read `d` of the current piece. It has completed `is` and stands
inside the instruction that `cur` has begun; `cur₀` was there when the call began. -/
structure InCall (H : Hooks σ) (s : σ) (cur₀ : Cursor limit) (d : Bytes)
    (is : List (Instruction limit)) (cur : Cursor limit) (p : OpcodeParser σ) (l : Call) :
    Prop where
  read : cur₀.read d = some (is, cur)
  tracks : p.Tracks cur
  judged : H.judge (H.afterAll s is) (seen cur.closed) = (p.members, l.denying)
  /-- the instruction from earlier calls is still being read -/
  carried : is = [] → cur₀.bytes ≠ [] → l.opcodeInThisCall = false ∧ l.denying = false
  /-- the current instruction has started in this call -/
  started : (is ≠ [] ∨ cur₀.bytes = []) → cur.bytes ≠ [] →
    l.opcodeInThisCall = true ∧ p.opcodeStartIdx + cur.bytes.length = d.length
  /-- an instruction from earlier calls has not been denied -/
  head : cur₀.bytes ≠ [] → ∀ i ∈ is.head?, H.denies s i = false
  ranges : Ascending 0 p.deniedRanges (d.length - cur.bytes.length)
  kept : cur₀.bytes ++ remove p.deniedRanges d = wire (H.survivors s is) ++ cur.bytes

theorem Session.inCall {H : Hooks σ} {s : σ} {cur : Cursor limit} {p : OpcodeParser σ}
    (h : Session H s cur p) :
    InCall H s cur [] [] cur { p with deniedRanges := [] } {} where
  read := rfl
  tracks := h.tracks
  judged := h.judged
  carried := by simp
  started := by simp
  head := by simp
  ranges := Nat.zero_le _
  kept := by simp [Hooks.survivors]

section Step

variable {H : Hooks σ} {s : σ} {cur₀ cur cur' : Cursor limit} {d : Bytes}
  {is : List (Instruction limit)} {p : OpcodeParser σ} {l : Call} {c : UInt8}

theorem InCall.bytes_eq (h : InCall H s cur₀ d is cur p l) :
    cur₀.bytes ++ d = wire is ++ cur.bytes :=
  Cursor.read_bytes h.read

/-- An instruction in progress ends with the bytes of this call. -/
theorem InCall.drop_start (h : InCall H s cur₀ d is cur p l)
    (hstart : p.opcodeStartIdx + cur.bytes.length = d.length) :
    d.drop p.opcodeStartIdx = cur.bytes := by
  have hsuffix : d.drop (d.length - cur.bytes.length) = cur.bytes := by
    have hb := h.bytes_eq
    have hd : d <:+ wire is ++ cur.bytes := ⟨_, hb⟩
    have hcur : cur.bytes <:+ wire is ++ cur.bytes := ⟨_, rfl⟩
    exact (List.suffix_iff_eq_drop.mp
      (List.suffix_of_suffix_length_le hcur hd (by omega))).symm
  rwa [show d.length - cur.bytes.length = p.opcodeStartIdx by omega] at hsuffix

theorem InCall.ends_le (h : InCall H s cur₀ d is cur p l) :
    ∀ r ∈ p.deniedRanges, r.1 + r.2 ≤ d.length :=
  fun _ hr => (h.ranges.end_le hr).trans (Nat.sub_le _ _)

theorem InCall.remove_snoc (h : InCall H s cur₀ d is cur p l) (c : UInt8) :
    remove p.deniedRanges (d ++ [c]) = remove p.deniedRanges d ++ [c] :=
  remove_append h.ends_le [c]

/-- The bytes of the instruction in progress grow with the piece. -/
theorem InCall.carried_bytes (h : InCall H s cur₀ d is cur p l) (hnil : is = []) :
    cur.bytes = cur₀.bytes ++ d := by
  have := h.bytes_eq
  rw [hnil, wire_nil, List.nil_append] at this
  exact this.symm

theorem InCall.read_snoc (h : InCall H s cur₀ d is cur p l) {c : UInt8}
    (hf : cur.feed c = some (.more cur')) : cur₀.read (d ++ [c]) = some (is, cur') := by
  rw [Cursor.read_append_of_eq_some h.read, Cursor.read_cons_more hf]
  simp

/-- A byte inside an element. -/
theorem InCall.inside (h : InCall H s cur₀ d is cur p l)
    (hlim : limit ≤ maxElementSize ∨ H.toleratesOversizedElements = true)
    (hpart : ∀ e, cur.part ≠ .delim e) (hf : cur.feed c = some (.more cur')) :
    ∃ p' l', p.turn H d.length c l = .next p' l' ∧
      InCall H s cur₀ (d ++ [c]) is cur' p' l' := by
  obtain ⟨p', hturn, htr, hmem, hran, hidx, hclosed⟩ :=
    h.tracks.turn_inside hlim hpart hf d.length l
  have hbytes := Cursor.bytes_feed_more hf
  refine ⟨p', _, hturn, h.read_snoc hf, htr, ?_, ?_, ?_, h.head, ?_, ?_⟩
  · rw [hclosed, hmem]
    exact h.judged
  · intro hnil hne
    obtain ⟨hop, hden⟩ := h.carried hnil hne
    have hcur : cur.bytes ≠ [] := by simp [h.carried_bytes hnil, hne]
    exact ⟨by simp [hop, hcur], hden⟩
  · intro hor _
    by_cases hcur : cur.bytes = []
    · simp [hidx, hcur, hbytes]
    · obtain ⟨hop, hstart⟩ := h.started hor hcur
      simp only [hidx, if_neg hcur, hop, hbytes, Bool.true_or, List.length_append,
        List.length_singleton, true_and]
      omega
  · rw [hran]
    have hlen : (d ++ [c]).length - cur'.bytes.length = d.length - cur.bytes.length := by
      simp [hbytes]
    rw [hlen]
    exact h.ranges
  · rw [hran, h.remove_snoc, ← List.append_assoc, h.kept, hbytes, List.append_assoc]

section Delimiter

variable {closed : List (Element limit)} {e : Element limit}

theorem bytes_delim_ne_nil : (⟨closed, .delim e⟩ : Cursor limit).bytes ≠ [] := by
  simp [Cursor.bytes, e.body_ne_nil]

/-- The verdict on the elements up to and including the one that is being closed. -/
theorem InCall.judge_snoc (h : InCall H s cur₀ d is ⟨closed, .delim e⟩ p l) :
    H.judge (H.afterAll s is) (seen (closed ++ [e])) =
      H.close closed.isEmpty (e.value.take maxElementSize) (p.members, l.denying) := by
  rw [seen_append, ← h.judged, ← isEmpty_seen closed]
  exact H.judge_append_singleton _ _ _

/-- A delimiter either closes the element with the verdict on it, or finds an instruction
from an earlier call denied and corrupts the stream. -/
theorem InCall.delim (h : InCall H s cur₀ d is ⟨closed, .delim e⟩ p l)
    (hc : c = comma ∨ c = semicolon) :
    let y := H.judge (H.afterAll s is) (seen (closed ++ [e]))
    (is = [] ∧ cur₀.bytes ≠ [] ∧ y.2 = true ∧
      ∃ p', p.turn H d.length c l = .ret p' ∧ p'.state = .streamCorrupted) ∨
    ((is = [] → cur₀.bytes ≠ [] → y.2 = false) ∧
      p.turn H d.length c l = { p with
        currentIndex := d.length, members := y.1, readingOpcode := false
        }.closeElement H d.length c { l with denying := y.2 }) := by
  intro y
  have hy : y = H.close closed.isEmpty (e.value.take maxElementSize) (p.members, l.denying) :=
    h.judge_snoc
  have hden : l.denying = true → closed ≠ [] := by
    rintro hd rfl
    have := h.judged
    simp [hd] at this
  obtain ⟨hret, hclose⟩ := h.tracks.turn_delim (H := H) hc d.length l hden
  rw [← hy] at hret hclose
  by_cases hcar : is = [] ∧ cur₀.bytes ≠ []
  · obtain ⟨hop, hd⟩ := h.carried hcar.1 hcar.2
    by_cases hy2 : y.2 = true
    · exact .inl ⟨hcar.1, hcar.2, hy2, hret hd hy2 hop⟩
    · exact .inr ⟨fun _ _ => by simpa using hy2, hclose fun hn => hy2 hn.2.1⟩
  · have hor : is ≠ [] ∨ cur₀.bytes = [] := by tauto
    obtain ⟨hop, -⟩ := h.started hor bytes_delim_ne_nil
    exact .inr ⟨fun h1 h2 => absurd ⟨h1, h2⟩ hcar, hclose fun hn => by simp [hop] at hn⟩

/-- A comma. -/
theorem InCall.close_comma (h : InCall H s cur₀ d is ⟨closed, .delim e⟩ p l) :
    (is = [] ∧ cur₀.bytes ≠ [] ∧ (H.judge s (seen (closed ++ [e]))).2 = true ∧
      ∃ p', p.turn H d.length comma l = .ret p' ∧ p'.state = .streamCorrupted) ∨
    ∃ p' l', p.turn H d.length comma l = .next p' l' ∧
      InCall H s cur₀ (d ++ [comma]) is ⟨closed ++ [e], .start⟩ p' l' := by
  have hf := Cursor.feed_comma closed e
  have hbytes := Cursor.bytes_feed_more hf
  rcases h.delim (.inl rfl) with ⟨hnil, hne, hy, hret⟩ | ⟨hcar, hturn⟩
  · refine .inl ⟨hnil, hne, ?_, hret⟩
    rwa [hnil] at hy
  · right
    have hsemi : comma ≠ semicolon := by decide
    rw [hturn, closeElement, if_neg hsemi]
    refine ⟨_, _, rfl, h.read_snoc hf, ⟨by simp, rfl, rfl⟩, rfl, ?_, ?_, h.head, ?_, ?_⟩
    · intro hnil hne
      exact ⟨(h.carried hnil hne).1, hcar hnil hne⟩
    · intro hor _
      obtain ⟨hop, hstart⟩ := h.started hor bytes_delim_ne_nil
      refine ⟨hop, ?_⟩
      rw [hbytes]
      simp only [List.length_append, List.length_singleton]
      omega
    · have hlen : (d ++ [comma]).length - (⟨closed ++ [e], .start⟩ : Cursor limit).bytes.length =
          d.length - (⟨closed, .delim e⟩ : Cursor limit).bytes.length := by
        simp [hbytes]
      rw [hlen]
      exact h.ranges
    · rw [h.remove_snoc, ← List.append_assoc, h.kept, hbytes, List.append_assoc]

/-- The first instruction of the call has not been denied if it was carried over. -/
theorem InCall.head_snoc (h : InCall H s cur₀ d is ⟨closed, .delim e⟩ p l)
    (hcar : is = [] → cur₀.bytes ≠ [] →
      (H.judge (H.afterAll s is) (seen (closed ++ [e]))).2 = false) :
    cur₀.bytes ≠ [] → ∀ j ∈ (is ++ [(⟨closed ++ [e], by simp⟩ : Instruction limit)]).head?,
      H.denies s j = false := by
  intro hne j hj
  rcases is.eq_nil_or_concat with hnil | ⟨is', a, hcons⟩
  · subst hnil
    simp only [List.nil_append, List.head?_cons, Option.mem_def, Option.some.injEq] at hj
    subst hj
    exact hcar rfl hne
  · have hisne : is ≠ [] := by simp [hcons]
    rw [List.head?_append_of_ne_nil _ hisne] at hj
    exact h.head hne j hj

/-- The range of the instruction in progress cuts it out of the piece, together with the byte
that closes it. -/
theorem InCall.remove_current (h : InCall H s cur₀ d is cur p l)
    (hstart : p.opcodeStartIdx + cur.bytes.length = d.length) (c : UInt8) :
    cur₀.bytes ++ remove (p.deniedRanges ++ [(p.opcodeStartIdx, d.length - p.opcodeStartIdx + 1)])
      (d ++ [c]) = wire (H.survivors s is) := by
  have hdrop := h.drop_start hstart
  have hran := h.ranges
  have hkeep := h.kept
  generalize cur.bytes = b at hstart hdrop hran hkeep
  have hidx : d.length - b.length = p.opcodeStartIdx := by omega
  have hlen : d.length - p.opcodeStartIdx + 1 = (b ++ [c]).length := by
    rw [List.length_append, List.length_singleton]
    omega
  rw [hidx] at hran
  -- the bytes in front of the instruction, and the instruction up to this byte
  have hsplit : d = d.take p.opcodeStartIdx ++ b := by
    rw [← hdrop, List.take_append_drop]
  have htake : (d.take p.opcodeStartIdx).length = p.opcodeStartIdx := by
    rw [List.length_take]
    omega
  have hends : ∀ r ∈ p.deniedRanges, r.1 + r.2 ≤ (d.take p.opcodeStartIdx).length := by
    rw [htake]
    exact fun r hr => hran.end_le hr
  have hcut := remove_append_range p.deniedRanges (d.take p.opcodeStartIdx) (b ++ [c])
  rw [htake, ← hlen, ← List.append_assoc, ← hsplit] at hcut
  rw [hcut]
  rw [hsplit, remove_append hends, ← List.append_assoc] at hkeep
  exact List.append_cancel_right hkeep

/-- The ranges stay ascending when the instruction in progress becomes one of them. -/
theorem InCall.ascending_current (h : InCall H s cur₀ d is cur p l)
    (hstart : p.opcodeStartIdx + cur.bytes.length = d.length) (c : UInt8) :
    Ascending 0 (p.deniedRanges ++ [(p.opcodeStartIdx, d.length - p.opcodeStartIdx + 1)])
      (d ++ [c]).length := by
  have hran := h.ranges
  have hidx : d.length - cur.bytes.length = p.opcodeStartIdx := by omega
  rw [hidx] at hran
  rw [List.length_append, List.length_singleton]
  exact (hran.append_singleton (Nat.succ_pos _)).mono (by omega)

/-- A semicolon. -/
theorem InCall.close_semicolon (h : InCall H s cur₀ d is ⟨closed, .delim e⟩ p l) (hst : H.Stationary) :
    let i : Instruction limit := ⟨closed ++ [e], by simp⟩
    (is = [] ∧ cur₀.bytes ≠ [] ∧ H.denies s i = true ∧
      ∃ p', p.turn H d.length semicolon l = .ret p' ∧ p'.state = .streamCorrupted) ∨
    ∃ p' l', p.turn H d.length semicolon l = .next p' l' ∧
      InCall H s cur₀ (d ++ [semicolon]) (is ++ [i]) .start p' l' := by
  intro i
  have hf := Cursor.feed_semicolon closed e
  have hbytes : i.encode = _ := Cursor.bytes_feed_done hf
  have hread : cur₀.read (d ++ [semicolon]) = some (is ++ [i], .start) := by
    rw [Cursor.read_append_of_eq_some h.read, Cursor.read_cons_done hf]
    rfl
  rcases h.delim (.inr rfl) with ⟨hnil, hne, hy, hret⟩ | ⟨hcar, hturn⟩
  · refine .inl ⟨hnil, hne, ?_, hret⟩
    rwa [hnil] at hy
  · right
    have hhead := h.head_snoc hcar
    generalize hy : H.judge (H.afterAll s is) (seen (closed ++ [e])) = y at hcar hturn
    obtain ⟨members, denied⟩ := y
    rw [hturn, closeElement, if_pos rfl]
    cases denied with
    | true =>
      have hden : H.denies (H.afterAll s is) i = true := congrArg Prod.snd hy
      have hor : is ≠ [] ∨ cur₀.bytes = [] := by
        by_contra hn
        rw [not_or, not_not] at hn
        exact absurd (hcar hn.1 hn.2) (by simp)
      obtain ⟨-, hstart⟩ := h.started hor bytes_delim_ne_nil
      rw [if_pos rfl]
      refine ⟨_, _, rfl, hread, ⟨rfl, rfl, rfl⟩, ?_, by simp, by simp, hhead, ?_, ?_⟩
      · rw [Hooks.afterAll_append, Hooks.afterAll_cons, Hooks.after_of_denied hy]
        rfl
      · exact h.ascending_current hstart semicolon
      · show cur₀.bytes ++ remove (p.deniedRanges ++ [(p.opcodeStartIdx, _)]) (d ++ [semicolon]) = _
        rw [h.remove_current hstart, Hooks.survivors_append]
        simp [Hooks.survivors, hden]
    | false =>
      have hden : H.denies (H.afterAll s is) i = false := congrArg Prod.snd hy
      rw [if_neg (by simp)]
      refine ⟨_, _, rfl, hread, ⟨rfl, rfl, rfl⟩, ?_, by simp, by simp, hhead, ?_, ?_⟩
      · rw [Hooks.afterAll_append, Hooks.afterAll_cons, Hooks.after_of_allowed hy, hst d.length]
        rfl
      · have := h.ranges.mono (Nat.sub_le _ _)
        exact this.mono (by simp)
      · rw [h.remove_snoc, ← List.append_assoc, h.kept, Hooks.survivors_append]
        simp [Hooks.survivors, hden, hbytes]

end Delimiter

theorem Tracks.state_ne {cur : Cursor limit} (h : p.Tracks cur) :
    p.state ≠ .streamCorrupted ∧ p.state ≠ .deniedData := by
  obtain ⟨closed, part⟩ := cur
  obtain ⟨-, h⟩ := h
  cases part <;> simp [h.1]

/-- What a call returns for a piece `d` that completes `is` and ends inside `cur`. -/
def Returns (H : Hooks σ) (s : σ) (cur₀ : Cursor limit) (d : Bytes)
    (is : List (Instruction limit)) (cur : Cursor limit)
    (r : ParserState × OpcodeParser σ) : Prop :=
  (H.Cuts s cur₀ is cur ∧ r.1 = .streamCorrupted) ∨
  (¬H.Cuts s cur₀ is cur ∧ r.1 ≠ .streamCorrupted ∧
    (r.1 = .deniedData ↔ r.2.deniedRanges ≠ []) ∧
    ∃ l, l.denying = false ∧ InCall H s cur₀ d is cur r.2 l)

/-- The last byte of a piece has been read. -/
theorem InCall.finish (h : InCall H s cur₀ d is cur p l) :
    Returns H s cur₀ d is cur (p.finish l) := by
  cases hd : l.denying with
  | true =>
    refine .inl ⟨.inr ?_, ?_⟩
    · simpa [hd] using congrArg Prod.snd h.judged
    · simp [OpcodeParser.finish, hd]
  | false =>
    right
    obtain ⟨hs1, hs2⟩ := h.tracks.state_ne
    have hp : (p.finish l).2 = p := by
      by_cases hr : p.deniedRanges = [] <;> simp [OpcodeParser.finish, hd, hr]
    refine ⟨?_, ?_, ?_, l, hd, by rwa [hp]⟩
    · rintro (⟨hne, i, hi, hden⟩ | hden)
      · simp [h.head hne i hi] at hden
      · simp [h.judged, hd] at hden
    all_goals
      by_cases hr : p.deniedRanges = [] <;> simp [OpcodeParser.finish, hd, hr, hs1, hs2]

theorem parseFrom_next {i : ℕ} {w : Bytes} {p' : OpcodeParser σ} {l' : Call}
    (h : p.turn H i c l = .next p' l') :
    parseFrom H i (c :: w) p l = parseFrom H (i + 1) w p' l' := by
  rw [parseFrom, h]

theorem parseFrom_ret {i : ℕ} {w : Bytes} {p' : OpcodeParser σ}
    (h : p.turn H i c l = .ret p') : parseFrom H i (c :: w) p l = (p'.state, p') := by
  rw [parseFrom, h]

/-- The invariant is carried through the bytes of a piece that stays inside the grammar. -/
theorem InCall.returns (h : InCall H s cur₀ d is cur p l) (hst : H.Stationary)
    (hlim : limit ≤ maxElementSize ∨ H.toleratesOversizedElements = true)
    {w : Bytes} {is' : List (Instruction limit)} (hr : cur.read w = some (is', cur')) :
    Returns H s cur₀ (d ++ w) (is ++ is') cur' (parseFrom H d.length w p l) := by
  induction w generalizing d is cur p l is' with
  | nil =>
    cases hr
    rw [List.append_nil, List.append_nil]
    exact h.finish
  | cons c w ih =>
    -- one byte further, the rest of the piece is left to the induction hypothesis
    have hnext : ∀ {is₁ is₂ : List (Instruction limit)} {cur₁ p₁ l₁},
        p.turn H d.length c l = .next p₁ l₁ → InCall H s cur₀ (d ++ [c]) is₁ cur₁ p₁ l₁ →
        cur₁.read w = some (is₂, cur') → is₁ ++ is₂ = is ++ is' →
        Returns H s cur₀ (d ++ c :: w) (is ++ is') cur'
          (OpcodeParser.parseFrom H d.length (c :: w) p l) := by
      intro is₁ is₂ cur₁ p₁ l₁ hturn h₁ hr₁ heq
      have := ih h₁ hr₁
      rwa [List.length_append, List.length_singleton, heq, List.append_assoc,
        List.singleton_append, ← parseFrom_next hturn] at this
    have hstop : ∀ {p'}, p.turn H d.length c l = .ret p' → p'.state = .streamCorrupted →
        H.Cuts s cur₀ (is ++ is') cur' →
        Returns H s cur₀ (d ++ c :: w) (is ++ is') cur'
          (OpcodeParser.parseFrom H d.length (c :: w) p l) :=
      fun hturn hp' hcut => .inl ⟨hcut, by rw [parseFrom_ret hturn, hp']⟩
    cases hf : cur.feed c with
    | none => simp [Cursor.read_cons_none hf] at hr
    | some fed =>
      cases fed with
      | more cur₁ =>
        rw [Cursor.read_cons_more hf] at hr
        by_cases hpart : ∃ e, cur.part = .delim e
        · obtain ⟨closed, part⟩ := cur
          obtain ⟨e, rfl⟩ := hpart
          obtain ⟨rfl, rfl⟩ := Cursor.feed_delim_more hf
          rcases h.close_comma with ⟨rfl, hne, hden, p', hturn, hp'⟩ | ⟨p', l', hturn, h'⟩
          · exact hstop hturn hp' (Hooks.cuts_of_closed_denied hne hden hr)
          · exact hnext hturn h' hr rfl
        · obtain ⟨p', l', hturn, h'⟩ := h.inside hlim (fun e he => hpart ⟨e, he⟩) hf
          exact hnext hturn h' hr rfl
      | done i =>
        rw [Cursor.read_cons_done hf, Option.map_eq_some_iff] at hr
        obtain ⟨⟨is₂, cur₂⟩, hr₂, heq⟩ := hr
        cases heq
        obtain ⟨rfl, e, he, rfl⟩ := Cursor.feed_eq_done hf
        obtain ⟨closed, part⟩ := cur
        subst he
        rcases h.close_semicolon hst with ⟨rfl, hne, hden, p', hturn, hp'⟩ | ⟨p', l', hturn, h'⟩
        · exact hstop hturn hp' (.inl ⟨hne, _, rfl, hden⟩)
        · exact hnext hturn h' hr₂ (by simp)

end Step

/-- A piece that leaves the grammar corrupts the stream. -/
theorem InCall.corrupts {H : Hooks σ} {s : σ} {cur₀ cur : Cursor maxElementSize} {d : Bytes}
    {is : List (Instruction maxElementSize)} {p : OpcodeParser σ} {l : Call}
    (h : InCall H s cur₀ d is cur p l) (hst : H.Stationary)
    (htol : H.toleratesOversizedElements = false) {w : Bytes} (hr : cur.read w = none) :
    (parseFrom H d.length w p l).1 = .streamCorrupted := by
  induction w generalizing d is cur p l with
  | nil => simp at hr
  | cons c w ih =>
    have hnext : ∀ {is₁ : List (Instruction maxElementSize)} {cur₁ p₁ l₁},
        p.turn H d.length c l = .next p₁ l₁ → InCall H s cur₀ (d ++ [c]) is₁ cur₁ p₁ l₁ →
        cur₁.read w = none →
        (OpcodeParser.parseFrom H d.length (c :: w) p l).1 = .streamCorrupted := by
      intro is₁ cur₁ p₁ l₁ hturn h₁ hr₁
      have := ih h₁ hr₁
      rwa [List.length_append, List.length_singleton, ← parseFrom_next hturn] at this
    have hstop : ∀ {p'}, p.turn H d.length c l = .ret p' → p'.state = .streamCorrupted →
        (OpcodeParser.parseFrom H d.length (c :: w) p l).1 = .streamCorrupted :=
      fun hturn hp' => by rw [parseFrom_ret hturn, hp']
    cases hf : cur.feed c with
    | none =>
      obtain ⟨p', hturn, hp', -⟩ := h.tracks.turn_none htol hf d.length l
      exact hstop hturn hp'
    | some fed =>
      cases fed with
      | more cur₁ =>
        rw [Cursor.read_cons_more hf] at hr
        by_cases hpart : ∃ e, cur.part = .delim e
        · obtain ⟨closed, part⟩ := cur
          obtain ⟨e, rfl⟩ := hpart
          obtain ⟨rfl, rfl⟩ := Cursor.feed_delim_more hf
          rcases h.close_comma with ⟨-, -, -, p', hturn, hp'⟩ | ⟨p', l', hturn, h'⟩
          · exact hstop hturn hp'
          · exact hnext hturn h' hr
        · obtain ⟨p', l', hturn, h'⟩ := h.inside (.inl le_rfl) (fun e he => hpart ⟨e, he⟩) hf
          exact hnext hturn h' hr
      | done i =>
        rw [Cursor.read_cons_done hf, Option.map_eq_none_iff] at hr
        obtain ⟨rfl, e, he, rfl⟩ := Cursor.feed_eq_done hf
        obtain ⟨closed, part⟩ := cur
        subst he
        rcases h.close_semicolon hst with ⟨-, -, -, p', hturn, hp'⟩ | ⟨p', l', hturn, h'⟩
        · exact hstop hturn hp'
        · exact hnext hturn h' hr

-- ════════════════════════════════════════════════════════════════════════
-- Hooks that deny nothing
-- ════════════════════════════════════════════════════════════════════════

section Allowed

variable {H : Hooks σ} {s : σ} {cur cur' : Cursor limit} {p : OpcodeParser σ} {l : Call} {c : UInt8}

theorem judge_allowed (hH : H.Allows) (s : σ) (vs : List Bytes) : (H.judge s vs).2 = false := by
  induction vs using List.reverseRecOn with
  | nil => rfl
  | append_singleton vs v ih =>
    rw [Hooks.judge_append_singleton, Hooks.close, if_neg (by simp [ih])]
    dsimp only
    split_ifs
    · simp [hH.opcode]
    · simp [hH.argument]

/-- A delimiter hands the element to the hooks, which allow it. -/
theorem Session.closes (hH : H.Allows) {closed : List (Element limit)} {e : Element limit}
    (h : Session H s ⟨closed, .delim e⟩ p) (hc : c = comma ∨ c = semicolon) (hl : l.denying = false)
    (i : ℕ) :
    ∃ m, H.judge s (seen (closed ++ [e])) = (m, false) ∧
      p.turn H i c l = { p with currentIndex := i, members := m, readingOpcode := false
        }.closeElement H i c l := by
  have hjudge : H.judge s (seen (closed ++ [e])) =
      H.close closed.isEmpty (e.value.take maxElementSize) (p.members, false) := by
    rw [seen_append, ← h.judged, ← isEmpty_seen closed]
    exact H.judge_append_singleton _ _ _
  have hdenied := judge_allowed hH s (seen (closed ++ [e]))
  have hturn := (h.tracks.turn_delim (H := H) hc i l (by simp [hl])).2
  rw [hl, ← hjudge] at hturn
  refine ⟨(H.judge s (seen (closed ++ [e]))).1, Prod.ext rfl hdenied, ?_⟩
  have hallowed : ¬(false = false ∧ (H.judge s (seen (closed ++ [e]))).2 = true ∧
      l.opcodeInThisCall = false) := by
    rw [hdenied]
    simp
  rw [hturn hallowed, hdenied, ← hl]

/-- A byte that goes on with the instruction. -/
theorem Session.turn_more (hH : H.Allows) (h : Session H s cur p) (hl : l.denying = false)
    (hlim : limit ≤ maxElementSize ∨ H.toleratesOversizedElements = true)
    (hf : cur.feed c = some (.more cur')) (i : ℕ) :
    ∃ p' l', p.turn H i c l = .next p' l' ∧ l'.denying = false ∧ Session H s cur' p' := by
  by_cases hpart : ∃ e, cur.part = .delim e
  · obtain ⟨closed, part⟩ := cur
    obtain ⟨e, rfl⟩ := hpart
    obtain ⟨rfl, rfl⟩ := Cursor.feed_delim_more hf
    obtain ⟨m, hjudge, hturn⟩ := h.closes hH (.inl rfl) hl i
    have hsemi : comma ≠ semicolon := by decide
    rw [closeElement, if_neg hsemi] at hturn
    exact ⟨_, _, hturn, hl, ⟨by simp, rfl, rfl⟩, hjudge⟩
  · obtain ⟨p', hturn, htracks, hmembers, -, -, hclosed⟩ :=
      h.tracks.turn_inside hlim (fun e he => hpart ⟨e, he⟩) hf i l
    refine ⟨p', _, hturn, hl, htracks, ?_⟩
    rw [hclosed, hmembers]
    exact h.judged

/-- A byte that completes the instruction. -/
theorem Session.turn_end (hH : H.Allows) (h : Session H s cur p) (hl : l.denying = false)
    {instruction : Instruction limit} (hf : cur.feed c = some (.done instruction)) (i : ℕ) :
    ∃ p' l', p.turn H i c l = .next p' l' ∧ l'.denying = false ∧ p'.Tracks (.start : Cursor limit) ∧
      p'.members = H.onInstructionEnd i (H.judge s (seen instruction.elements)).1 := by
  obtain ⟨rfl, e, he, rfl⟩ := Cursor.feed_eq_done hf
  obtain ⟨closed, part⟩ := cur
  obtain rfl : part = .delim e := he
  obtain ⟨m, hjudge, hturn⟩ := h.closes hH (.inr rfl) hl i
  rw [closeElement, if_pos rfl, if_neg (by simp [hl])] at hturn
  refine ⟨_, _, hturn, hl, ⟨rfl, rfl, rfl⟩, ?_⟩
  rw [hjudge]

end Allowed

end OpcodeParser

end GuacamoleDiode
