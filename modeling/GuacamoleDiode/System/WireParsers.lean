import GuacamoleDiode.Nettest.GuacClient
import GuacamoleDiode.Parser.FirstEnd

/-!
# The two parsers of the wire format

The client of the network tests searches a text for dots and cuts elements out of it, the parser of
the proxies goes through the bytes one by one. On ASCII texts both find the instruction that the
grammar of the wire format finds, or none.

## Main results

- `GuacClient.reads_iff`: the texts that the client reads are the instructions of the grammar
- `wire_parsers_agree`
-/

namespace GuacamoleDiode

open Wire GuacClient

namespace GuacClient

theorem mem_digits_iff {c : Char} (hc : c.toNat ≤ 127) :
    c ∈ digits ↔ isDigit (byteOf c) = true := by
  have hall : ∀ n ≤ 127, Char.ofNat n ∈ digits ↔ isDigit n.toUInt8 = true := by decide
  have hself := hall c.toNat hc
  rwa [Char.ofNat_toNat] at hself

theorem int_eq_declared {d : Text} (hd : ∀ c ∈ d, c.toNat ≤ 127) : int d = declared (utf8 d) := by
  induction d using List.reverseRecOn with
  | nil => rfl
  | append_singleton d c ih =>
    have hc : c.toNat ≤ 127 := hd c (by simp)
    have hrest : ∀ a ∈ d, a.toNat ≤ 127 := fun a ha => hd a (List.mem_append_left [c] ha)
    have hbyte : utf8 [c] = [byteOf c] := utf8_eq_map (by simpa using hc)
    rw [int_append_singleton, ih hrest, utf8_append, hbyte, declared_append_singleton, digitValue,
      toNat_byteOf hc]

/-- On ASCII texts, a length and its element are an element of the grammar. -/
theorem declares_iff {d v : Text} (hd : ∀ c ∈ d, c.toNat ≤ 127) (hv : ∀ c ∈ v, c.toNat ≤ 127) :
    Declares d v ↔ ∃ e : Element maxElementSize, e.digits = utf8 d ∧ e.value = utf8 v := by
  obtain ⟨hlength, hascii⟩ := utf8_of_ascii hv
  have hdigits : (∀ b ∈ utf8 d, isDigit b = true) ↔ ∀ c ∈ d, c ∈ digits := by
    rw [utf8_eq_map hd, List.forall_mem_map]
    exact forall₂_congr fun c hc => (mem_digits_iff (hd c hc)).symm
  have hempty : utf8 d = [] ↔ d = [] := by
    rw [utf8_eq_map hd, List.map_eq_nil_iff]
  constructor
  · intro h
    exact ⟨⟨utf8 d, utf8 v, fun hnil => h.ne_nil (hempty.mp hnil), hdigits.mpr h.mem_digits,
      by rw [← int_eq_declared hd, h.int_eq, hlength], hlength.trans_le h.length_le, hascii⟩,
      rfl, rfl⟩
  · rintro ⟨e, hed, hev⟩
    refine ⟨fun hnil => ?_, hdigits.mp ?_, ?_, ?_⟩
    · exact e.digits_ne_nil (hed.trans (hempty.mpr hnil))
    · exact hed ▸ e.digits_isDigit
    · rw [int_eq_declared hd, ← hed, e.declared_eq, hev, hlength]
    · rw [← hlength, ← hev]
      exact e.length_le

/-- What the client reads is an instruction of the grammar. -/
theorem exists_of_reads {buf rest : Text} {elems : List Text} (h : Reads buf elems rest)
    (hbuf : ∀ c ∈ buf, c.toNat ≤ 127) :
    ∃ es : List (Element maxElementSize), es ≠ [] ∧
      utf8 buf = encodeElements es ++ utf8 rest ∧ es.map Element.value = elems.map utf8 := by
  induction h with
  | @last d v rest hd =>
    obtain ⟨e, hed, hev⟩ := (declares_iff (fun c hc => hbuf c (by simp [hc]))
      (fun c hc => hbuf c (by simp [hc]))).mp hd
    refine ⟨[e], List.cons_ne_nil e [], ?_, by rw [List.map_singleton, List.map_singleton, hev]⟩
    have hsplit : d ++ '.' :: (v ++ ';' :: rest) = d ++ ['.'] ++ v ++ [';'] ++ rest := by simp
    rw [hsplit]
    simp only [utf8_append, encodeElements, Element.body, hed, hev, List.append_assoc]
    rfl
  | @next d v s rest elems hd hs ih =>
    obtain ⟨e, hed, hev⟩ := (declares_iff (fun c hc => hbuf c (by simp [hc]))
      (fun c hc => hbuf c (by simp [hc]))).mp hd
    obtain ⟨es, hne, hencode, hvalues⟩ := ih fun c hc => hbuf c (by simp [hc])
    refine ⟨e :: es, List.cons_ne_nil e es, ?_, by rw [List.map_cons, List.map_cons, hev, hvalues]⟩
    have hsplit : d ++ '.' :: (v ++ ',' :: s) = d ++ ['.'] ++ v ++ [','] ++ s := by simp
    obtain ⟨e', es', rfl⟩ := List.exists_cons_of_ne_nil hne
    rw [hsplit]
    simp only [utf8_append, encodeElements, Element.body, hed, hev, hencode, List.append_assoc]
    rfl

/-- The first element of an ASCII text, cut out at its bytes. -/
theorem exists_declares {buf v : Text} (hbuf : ∀ c ∈ buf, c.toNat ≤ 127)
    {e : Element maxElementSize} (hv : e.value = utf8 v) {c : Char} {w : Bytes}
    (h : utf8 buf = e.body ++ (utf8 [c] ++ w)) :
    ∃ d t, buf = d ++ '.' :: (v ++ c :: t) ∧ Declares d v ∧ utf8 t = w := by
  have hbody : utf8 buf = e.digits ++ (utf8 ('.' :: (v ++ [c])) ++ w) := by
    have hdot : '.' :: (v ++ [c]) = ['.'] ++ v ++ [c] := by simp
    rw [h, Element.body, hv, hdot, utf8_append, utf8_append]
    simp only [List.append_assoc]
    rfl
  obtain ⟨d, s, rfl, hd, hs⟩ := exists_of_utf8_append hbuf hbody
  obtain ⟨t, rfl, ht⟩ := exists_of_utf8_append_utf8 (fun a ha => hbuf a (by simp [ha])) hs
  refine ⟨d, t, by simp, ?_, ht⟩
  exact (declares_iff (fun a ha => hbuf a (by simp [ha])) (fun a ha => hbuf a (by simp [ha]))).mpr
    ⟨e, hd.symm, hv⟩

/-- An ASCII text with an instruction of the grammar in front is read by the client. -/
theorem reads_of_encode {buf rest : Text} {es : List (Element maxElementSize)} {elems : List Text}
    (hbuf : ∀ c ∈ buf, c.toNat ≤ 127) (hne : es ≠ [])
    (hencode : utf8 buf = encodeElements es ++ utf8 rest)
    (hvalues : es.map Element.value = elems.map utf8) : Reads buf elems rest := by
  induction es generalizing buf elems with
  | nil => exact absurd rfl hne
  | cons e es ih =>
    obtain ⟨v, vs, rfl, hev, hvs⟩ := List.map_eq_cons_iff.mp hvalues.symm
    cases es with
    | nil =>
      have hlast : utf8 buf = e.body ++ (utf8 [';'] ++ utf8 rest) := by
        rw [hencode, encodeElements, List.append_assoc]
        rfl
      obtain ⟨d, t, rfl, hd, ht⟩ := exists_declares hbuf hev.symm hlast
      obtain rfl : vs = [] := by simpa using hvs
      rw [utf8_injective ht]
      exact .last hd
    | cons e' es =>
      have hnext : utf8 buf = e.body ++ (utf8 [','] ++ (encodeElements (e' :: es) ++ utf8 rest)) := by
        rw [hencode, encodeElements, List.append_assoc]
        rfl
      obtain ⟨d, t, rfl, hd, ht⟩ := exists_declares hbuf hev.symm hnext
      refine .next hd (ih (fun a ha => hbuf a (by simp [ha])) (List.cons_ne_nil e' es) ht ?_)
      exact hvs.symm

/-- On ASCII texts, the client reads the instructions of the grammar. -/
theorem reads_iff {buf rest : Text} {elems : List Text} (hbuf : ∀ c ∈ buf, c.toNat ≤ 127) :
    Reads buf elems rest ↔ ∃ i : Instruction maxElementSize,
      utf8 buf = i.encode ++ utf8 rest ∧ i.values = elems.map utf8 := by
  constructor
  · intro h
    obtain ⟨es, hne, hencode, hvalues⟩ := exists_of_reads h hbuf
    exact ⟨⟨es, hne⟩, hencode, hvalues⟩
  · rintro ⟨i, hencode, hvalues⟩
    exact reads_of_encode hbuf i.elements_ne_nil hencode hvalues

end GuacClient

/-- On an ASCII text, the client returns elements and a rest if and only if a fresh parser of the
proxies comes to the end of an instruction for the first time at the last character in front of that
rest, having reported just these elements. So the client reads back every list of ASCII elements
that it has written, whatever comes behind it. -/
theorem wire_parsers_agree :
    (∀ buf : Text, (∀ c ∈ buf, c.toNat ≤ 127) → ∀ (elems : List Text) (rest : Text),
      parseInstruction buf = .ok (some elems, rest) ↔
        ∃ u, buf = u ++ rest ∧ u ≠ [] ∧
          firstEnd (utf8 buf) = some (u.length - 1, reportOf (elems.map utf8))) ∧
    ∀ elems : List Text, elems ≠ [] →
      (∀ e ∈ elems, (∀ c ∈ e, c.toNat ≤ 127) ∧ e.length ≤ 8192) → ∀ rest : Text,
        ∃ text, decodeUtf8 (encode elems) = some text ∧
          parseInstruction (text ++ rest) = .ok (some elems, rest) := by
  refine ⟨fun buf hbuf elems rest => ?_, fun elems hne h rest => ?_⟩
  · rw [parseInstruction_iff, reads_iff hbuf]
    constructor
    · rintro ⟨i, hencode, hvalues⟩
      obtain ⟨u, t, rfl, hu, ht⟩ := exists_of_utf8_append hbuf hencode
      obtain rfl := utf8_injective ht
      have hlength : u.length = i.encode.length := by
        rw [← hu, (utf8_of_ascii fun c hc => hbuf c (List.mem_append_left t hc)).1]
      have hpos := List.length_pos_iff.mpr i.encode_ne_nil
      refine ⟨u, rfl, List.length_pos_iff.mp (by omega), firstEnd_eq_some_iff.mpr ?_⟩
      exact ⟨i, utf8 t, hencode, by omega, by rw [hvalues]⟩
    · rintro ⟨u, rfl, hne, hfirst⟩
      obtain ⟨i, w, hdata, hindex, hreport⟩ := firstEnd_eq_some_iff.mp hfirst
      have hpos := List.length_pos_iff.mpr hne
      have hlength : (utf8 u).length = i.encode.length := by
        rw [(utf8_of_ascii fun c hc => hbuf c (List.mem_append_left rest hc)).1]
        omega
      rw [utf8_append] at hdata
      obtain ⟨hu, -⟩ := List.append_inj hdata hlength
      exact ⟨i, by rw [utf8_append, hu], reportOf_injective hreport⟩
  · obtain ⟨text, hdecode, hparse⟩ := exists_decode_encode hne fun e he => (h e he).2
    exact ⟨text, hdecode, hparse rest⟩

/-- A mouse event with a part of the next instruction behind it. -/
theorem wire_parsers_agree_mouse :
    (∃ u, "5.mouse,1.7;3.no".toList = u ++ "3.no".toList ∧ u ≠ [] ∧
      firstEnd (utf8 "5.mouse,1.7;3.no".toList) =
        some (u.length - 1, reportOf (["mouse".toList, ['7']].map utf8))) ∧
    ∃ text, decodeUtf8 (encode ["mouse".toList, ['7']]) = some text ∧
      parseInstruction (text ++ "3.no".toList) =
        .ok (some ["mouse".toList, ['7']], "3.no".toList) := by
  have hopcode : Declares ['5'] "mouse".toList := ⟨by simp, by simp [digits], by rfl, by simp [maxElement]⟩
  have harg : Declares ['1'] ['7'] := ⟨by simp, by simp [digits], by rfl, by simp [maxElement]⟩
  have hreads : Reads "5.mouse,1.7;3.no".toList ["mouse".toList, ['7']] "3.no".toList :=
    .next hopcode (.last harg)
  exact ⟨(wire_parsers_agree.1 _ (by simp) _ _).mp (parseInstruction_iff.mpr hreads),
    wire_parsers_agree.2 _ (by simp) (by simp) _⟩

end GuacamoleDiode
