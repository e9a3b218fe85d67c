import Workhorse.Checkpoint.Lemmas.Reading

/-!
# Canonical texts identify values up to key order

A text shows where each value in it ends, so it belongs to one value. The canonical text is the text of the value with
sorted keys, and sorting the keys identifies exactly the values that are equal up to key order.
-/

namespace Workhorse

open CodeUnit

/-! ## One text, one value -/

/-- What follows a value in a text is not part of it. -/
theorem stringify_split {u v : JsValue} {text text' : Utf16} (h : u.stringify ++ text = v.stringify ++ text')
    (htext : TokenEnd text) (htext' : TokenEnd text') : u.stringify = v.stringify ∧ text = text' := by
  have hread (w : JsValue) (rest : Utf16) (hw : TokenEnd rest) :
      readValue .ok id id (w.stringify ++ rest).length (w.stringify ++ rest) = .ok (w.sortKeys.stringify, rest) :=
    reads w (fun _ _ => rfl) ⟨fun _ _ => rfl, fun _ _ _ _ => rfl⟩ _ rest (by simp) hw
  have hu := hread u text htext
  rw [h, hread v text' htext'] at hu
  obtain ⟨-, rfl⟩ := Prod.ext_iff.mp (Except.ok.inj hu)
  exact ⟨List.append_cancel_right h, rfl⟩

theorem member_split {key key' value value' : Utf16} {text text' : Utf16}
    (h : member key value ++ text = member key' value' ++ text') : key = key' ∧ value ++ text = value' ++ text' := by
  have hread (key value text : Utf16) :
      readUnits (member key value ++ text).tail = some (key, ofChar ':' :: (value ++ text)) := by
    simp [member, quote, readUnits_escapeUnits]
  have hkey := hread key value text
  rw [h, hread key' value' text'] at hkey
  simp only [Option.some.injEq, Prod.mk.injEq, List.cons.injEq, true_and] at hkey
  exact ⟨hkey.1.symm, hkey.2.symm⟩

theorem elements_inj {α : Type} {write : α → Utf16} {close : CodeUnit}
    (hclose : delimiter close = true ∧ close ≠ ofChar ',')
    (hstart : ∀ a, ∃ c text, write a = c :: text ∧ delimiter c = false) {as bs : List α}
    (hsplit : ∀ a ∈ as, ∀ b text text', TokenEnd text → TokenEnd text' → write a ++ text = write b ++ text' →
      a = b ∧ text = text')
    (h : [ofChar ','].intercalate (as.map write) ++ [close] = [ofChar ','].intercalate (bs.map write) ++ [close]) :
    as = bs := by
  have hfirst (b : α) (bs : List α) : [close] ≠ [ofChar ','].intercalate ((b :: bs).map write) ++ [close] := by
    obtain ⟨c, text, hb, hc⟩ := hstart b
    obtain ⟨rest, hrest⟩ := intercalate_cons_eq c text (bs.map write) [ofChar ',']
    rw [List.map_cons, hb, hrest, List.cons_append]
    intro heq
    rw [← (List.cons.inj heq).1, hclose.1] at hc
    cases hc
  have hends : TokenEnd [close] := ends_cons hclose.1 []
  have hcomma (text : Utf16) : TokenEnd (ofChar ',' :: text) := ends_cons (by decide) text
  induction as generalizing bs with
  | nil =>
    cases bs with
    | nil => rfl
    | cons b bs => exact absurd h (hfirst b bs)
  | cons a as ih =>
    cases bs with
    | nil => exact absurd h.symm (hfirst a as)
    | cons b bs =>
      have ha := hsplit a List.mem_cons_self b
      cases as with
      | nil =>
        cases bs with
        | nil =>
          simp only [List.map_cons, List.map_nil, List.intercalate_singleton] at h
          rw [(ha _ _ hends hends h).1]
        | cons b' bs =>
          simp only [List.map_cons, List.map_nil, List.intercalate_singleton, List.intercalate_cons_cons,
            List.append_assoc, List.cons_append, List.nil_append] at h
          have heq := (ha _ _ hends (hcomma _) h).2
          exact absurd (List.cons.inj heq).1 hclose.2
      | cons a' as =>
        cases bs with
        | nil =>
          simp only [List.map_cons, List.map_nil, List.intercalate_singleton, List.intercalate_cons_cons,
            List.append_assoc, List.cons_append, List.nil_append] at h
          have heq := (ha _ _ (hcomma _) hends h).2
          exact absurd (List.cons.inj heq).1.symm hclose.2
        | cons b' bs =>
          simp only [List.map_cons, List.intercalate_cons_cons, List.append_assoc, List.cons_append,
            List.nil_append] at h
          obtain ⟨rfl, heq⟩ := ha _ _ (hcomma _) (hcomma _) h
          have hrest := @ih (b' :: bs) (fun a ha => hsplit a (List.mem_cons_of_mem _ ha)) (List.cons.inj heq).2
          rw [hrest]

def JsValue.tag : JsValue → Nat
  | .null => 0
  | .bool _ => 1
  | .number _ => 2
  | .string _ => 3
  | .array _ => 4
  | .object _ => 5

def textTag (text : Utf16) : Nat :=
  if text.head? = some (ofChar 'n') then 0
  else if text.head? = some (ofChar 't') ∨ text.head? = some (ofChar 'f') then 1
  else if text.head? = some (ofChar '"') then 3
  else if text.head? = some (ofChar '[') then 4
  else if text.head? = some (ofChar '\x7b') then 5
  else 2

theorem textTag_stringify (v : JsValue) : textTag v.stringify = v.tag := by
  cases v with
  | null => rfl
  | bool b => cases b <;> rfl
  | number token =>
    obtain ⟨c, text, h⟩ := List.exists_cons_of_ne_nil (text_ne_nil token)
    obtain ⟨⟨-, hbracket, hbrace, hquote⟩, ht, hf, hn⟩ := unreserved_number token c (h ▸ List.mem_cons_self)
    simp [textTag, JsValue.stringify, JsValue.tag, h, hbracket, hbrace, hquote, ht, hf, hn]
  | string s => rfl
  | array items => rfl
  | object members => rfl

theorem tag_eq {u v : JsValue} (h : u.stringify = v.stringify) : u.tag = v.tag := by
  rw [← textTag_stringify, h, textTag_stringify]

theorem ofText_number_inj {a b : NumberToken} (h : ofText a.text = ofText b.text) : a = b := by
  have hdigits : ∀ d : Digit, d.toChar.toNat < 65536 := by decide
  have hothers : (['-', '+', '.', 'e', 'E'].all fun c => c.toNat < 65536) = true := by decide
  have hsmall (t : NumberToken) (c : Char) (hc : c ∈ t.text) : c.toNat < 65536 := by
    obtain ⟨d, rfl⟩ | hc := t.mem_text hc
    · exact hdigits d
    · exact of_decide_eq_true (List.all_eq_true.mp hothers c hc)
  have hback (t : NumberToken) : (ofText t.text).map (fun c => Char.ofNat c.val) = t.text := by
    rw [ofText, List.map_map]
    refine (List.map_congr_left fun c hc => ?_).trans (List.map_id _)
    simp [ofChar, Fin.ofNat, Nat.mod_eq_of_lt (hsmall t c hc)]
  apply NumberToken.text_inj
  rw [← hback a, h, hback b]

theorem stringify_inj (u : JsValue) : ∀ {v : JsValue}, u.stringify = v.stringify → u = v := by
  induction u using JsValue.induct with
  | null =>
    intro v h
    cases v <;> cases tag_eq h
    rfl
  | bool b =>
    intro v h
    cases v <;> cases tag_eq h
    rename_i b'
    cases b <;> cases b' <;> simp [JsValue.stringify, ofText, ofChar] at h ⊢
  | number token =>
    intro v h
    cases v <;> cases tag_eq h
    rw [ofText_number_inj h]
  | string s =>
    intro v h
    cases v <;> cases tag_eq h
    rename_i s'
    have hread (s : Utf16) : readUnits (quote s).tail = some (s, []) := readUnits_escapeUnits s []
    have hs := hread s
    rw [show quote s = quote s' from h, hread s'] at hs
    cases hs
    rfl
  | array items ih =>
    intro v h
    cases v <;> cases tag_eq h
    rename_i items'
    simp only [JsValue.stringify, JsValue.stringifyItems_eq, brackets] at h
    rw [elements_inj (by decide) stringify_cons (fun a ha b text text' htext htext' heq => ?_) (List.cons.inj h).2]
    obtain ⟨hsame, hrest⟩ := stringify_split heq htext htext'
    exact ⟨ih a ha hsame, hrest⟩
  | object members ih =>
    intro v h
    cases v <;> cases tag_eq h
    rename_i members'
    simp only [JsValue.stringify, JsValue.stringifyMembers_eq, braces, List.map_map] at h
    have hstart (m : Utf16 × JsValue) : ∃ c text, member m.1 m.2.stringify = c :: text ∧ delimiter c = false :=
      ⟨_, _, rfl, by decide⟩
    rw [elements_inj (by decide) hstart (fun m hm m' text text' htext htext' heq => ?_) (List.cons.inj h).2]
    obtain ⟨hkey, hvalue⟩ := member_split heq
    obtain ⟨hsame, hrest⟩ := stringify_split hvalue htext htext'
    exact ⟨Prod.ext hkey (ih m hm hsame), hrest⟩

/-- The canonical texts of two values, as `JSON.stringify` writes them, are equal exactly when the values are equal up
to the order of the members of objects. -/
theorem canonicalText_eq_iff {δ : Type} {checkString : Utf16 → Except String Utf16} {number : Utf16 → δ}
    {writeNumber : δ → Utf16} {u v : JsValue} (hu : u.Distinct) (hv : v.Distinct)
    (hcu : u.Canonical (fun token => writeNumber (number token)))
    (hcv : v.Canonical (fun token => writeNumber (number token)))
    (hau : u.Accepted checkString) (hav : v.Accepted checkString) :
    ∃ a b, canonicalText checkString number writeNumber u.stringify = .ok a ∧
      canonicalText checkString number writeNumber v.stringify = .ok b ∧ a = u.sortKeys.stringify ∧
      (a = b ↔ JsValue.Same u v) := by
  refine ⟨_, _, canonicalText_stringify hcu hau, canonicalText_stringify hcv hav, rfl, ?_⟩
  rw [← JsValue.sortKeys_eq_iff u hu hv]
  exact ⟨fun h => stringify_inj _ h, fun h => by rw [h]⟩

namespace JsValue

/-- The keys `9` and `😀`, an array index and a surrogate pair. -/
def entries : List (Utf16 × JsValue) := [(ofText "9".toList, null), ([0xD83D, 0xDE00], bool true)]

theorem entries_valid {ms : List (Utf16 × JsValue)} (h : ms = entries ∨ ms = entries.reverse) :
    (object ms).Distinct ∧ (object ms).Canonical id ∧ (object ms).Accepted wellFormedString := by
  have hkeys : ∀ m ∈ ms, wellFormedString m.1 = .ok m.1 := by
    obtain rfl | rfl := h <;> simp only [entries, List.reverse_cons, List.reverse_nil, List.nil_append,
      List.cons_append, List.forall_mem_cons, List.not_mem_nil, false_implies, implies_true, and_true] <;>
      exact ⟨rfl, rfl⟩
  have honly : ∀ v ∈ (object ms).parts, v = object ms ∨ v = null ∨ v = bool true := by
    obtain rfl | rfl := h <;> simp [parts, partsMembers, entries]
  refine ⟨fun members hm => ?_, fun token ht => ?_, fun s hs => ?_, fun members hm => ?_⟩
  · obtain heq := honly _ hm
    simp only [object.injEq, reduceCtorEq, or_false] at heq
    obtain rfl | rfl := h <;> subst heq <;> decide
  · rfl
  · simpa using honly _ hs
  · have heq := honly _ hm
    simp only [object.injEq, reduceCtorEq, or_false] at heq
    exact heq ▸ hkeys

end JsValue

open JsValue in
theorem canonicalText_eq_iff_entries : ∃ a b, canonicalText wellFormedString id id (object entries).stringify = .ok a ∧
    canonicalText wellFormedString id id (object entries.reverse).stringify = .ok b ∧ a = b := by
  obtain ⟨hu, hcu, hau⟩ := entries_valid (.inl rfl)
  obtain ⟨hv, hcv, hav⟩ := entries_valid (.inr rfl)
  obtain ⟨a, b, ha, hb, -, hiff⟩ := @canonicalText_eq_iff Utf16 wellFormedString id id _ _ hu hv hcu hcv hau hav
  have hsame : Same (object entries) (object entries.reverse) :=
    ⟨rfl, ⟨null, by simp [entries], trivial⟩, ⟨bool true, by simp [entries], rfl⟩, trivial⟩
  exact ⟨a, b, ha, hb, hiff.mpr hsame⟩

end Workhorse
