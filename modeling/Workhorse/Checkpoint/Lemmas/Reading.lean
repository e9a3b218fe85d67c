import Workhorse.Checkpoint.Lemmas.Values

/-!
# Reading back what `JSON.stringify` writes

Each reader undoes its writer, whatever follows in the text. So the text of a value also shows where the value ends.
-/

namespace Workhorse

open CodeUnit

/-! ## Strings -/

section Units

variable {c e : CodeUnit} {text : Utf16}

theorem readUnits_quote (text : Utf16) : readUnits (ofChar '"' :: text) = some ([], text) := by
  rw [readUnits.eq_def]
  exact if_pos rfl

theorem readUnits_plain (hquote : c ≠ ofChar '"') (hbackslash : c ≠ ofChar '\\') (text : Utf16) :
    readUnits (c :: text) = (readUnits text).map (Prod.map (c :: ·) id) := by
  rw [readUnits.eq_def]
  dsimp only
  rw [if_neg hquote, if_pos hbackslash]

theorem readUnits_short (he : e ≠ ofChar 'u') (hc : escaped e = some c) (text : Utf16) :
    readUnits (ofChar '\\' :: e :: text) = (readUnits text).map (Prod.map (c :: ·) id) := by
  rw [readUnits.eq_def]
  dsimp only
  rw [if_neg (by decide), if_neg (by decide), if_neg he, hc, Option.bind_some]

theorem readUnits_unicode (c : CodeUnit) (text : Utf16) :
    readUnits (ofChar '\\' :: ofChar 'u' :: (hexDigits c ++ text)) = (readUnits text).map (Prod.map (c :: ·) id) := by
  rw [readUnits.eq_def]
  dsimp only [hexDigits, List.cons_append]
  rw [if_neg (by decide), if_neg (by decide), if_pos rfl, ofHexDigits_hexDigits, Option.bind_some, List.nil_append]

theorem readUnits_escapeUnit (c : CodeUnit) (text : Utf16) :
    readUnits (escapeUnit c ++ text) = (readUnits text).map (Prod.map (c :: ·) id) := by
  have hval : ∀ n : Nat, n < 65536 → c.val = n → c = Fin.ofNat 65536 n := by
    intro n hn hc
    apply Fin.ext
    simp [Fin.ofNat, hc, Nat.mod_eq_of_lt hn]
  simp only [escapeUnit]
  split
  · rename_i hc
    subst hc
    exact readUnits_short (by decide) (by decide) text
  split
  · rename_i hc
    subst hc
    exact readUnits_short (by decide) (by decide) text
  split
  · rename_i hc
    obtain rfl := hval 8 (by decide) hc
    exact readUnits_short (by decide) (by decide) text
  split
  · rename_i hc
    obtain rfl := hval 12 (by decide) hc
    exact readUnits_short (by decide) (by decide) text
  split
  · rename_i hc
    obtain rfl := hval 10 (by decide) hc
    exact readUnits_short (by decide) (by decide) text
  split
  · rename_i hc
    obtain rfl := hval 13 (by decide) hc
    exact readUnits_short (by decide) (by decide) text
  split
  · rename_i hc
    obtain rfl := hval 9 (by decide) hc
    exact readUnits_short (by decide) (by decide) text
  split
  · exact readUnits_unicode c text
  · rename_i hquote hbackslash _ _ _ _ _ _
    exact readUnits_plain hquote hbackslash text

theorem plain_of_surrogate (h : c.surrogate = true) : c ≠ ofChar '"' ∧ c ≠ ofChar '\\' := by
  constructor <;>
  · rintro rfl
    revert h
    decide

theorem readUnits_escapeUnits (s text : Utf16) : readUnits (escapeUnits s ++ ofChar '"' :: text) = some (s, text) := by
  induction s using escapeUnits.induct with
  | case1 => simp [escapeUnits, readUnits_quote]
  | case2 c => simp [escapeUnits, readUnits_escapeUnit, readUnits_quote]
  | case3 c d rest hpair ih =>
    obtain ⟨hleading, htrailing⟩ := (Bool.and_eq_true _ _).mp hpair
    obtain ⟨hc, hc'⟩ := plain_of_surrogate (c := c) (by simp [surrogate, hleading])
    obtain ⟨hd, hd'⟩ := plain_of_surrogate (c := d) (by simp [surrogate, htrailing])
    simp only [escapeUnits, hpair, if_true, List.cons_append]
    rw [readUnits_plain hc hc', readUnits_plain hd hd', ih]
    rfl
  | case4 c d rest hpair ih =>
    simp only [escapeUnits, hpair, List.append_assoc, Bool.false_eq_true, if_false]
    rw [readUnits_escapeUnit, ih]
    rfl

end Units

/-! ## Tokens -/

def TokenEnd (text : Utf16) : Prop := ∀ c, text.head? = some c → delimiter c = true

theorem ends_nil : TokenEnd [] := by simp [TokenEnd]

theorem ends_cons {c : CodeUnit} (h : delimiter c = true) (text : Utf16) : TokenEnd (c :: text) := by simp [TokenEnd, h]

section Token

variable {token text : Utf16}

theorem takeWhile_token (htoken : ∀ c ∈ token, delimiter c = false) (htext : TokenEnd text) :
    (token ++ text).takeWhile (!delimiter ·) = token := by
  rw [List.takeWhile_append_of_pos fun c hc => by simp [htoken c hc]]
  cases text with
  | nil => simp
  | cons c text => simp [htext c rfl]

theorem dropWhile_token (htoken : ∀ c ∈ token, delimiter c = false) (htext : TokenEnd text) :
    (token ++ text).dropWhile (!delimiter ·) = text := by
  rw [List.dropWhile_append_of_pos fun c hc => by simp [htoken c hc]]
  cases text with
  | nil => simp
  | cons c text => simp [htext c rfl]

end Token

namespace NumberToken

theorem mem_text (t : NumberToken) {c : Char} (h : c ∈ t.text) :
    (∃ d : Digit, c = d.toChar) ∨ c ∈ ['-', '+', '.', 'e', 'E'] := by
  have hdigits : ∀ ds : List Digit, c ∈ digitsText ds → ∃ d : Digit, c = d.toChar := by
    intro ds hc
    obtain ⟨d, -, rfl⟩ := List.mem_map.mp hc
    exact ⟨d, rfl⟩
  simp only [text, unsignedText, List.mem_append] at h
  obtain h | h | h | h := h
  · split at h <;> simp_all
  · exact .inl (hdigits _ h)
  · simp only [fractionText] at h
    split at h
    · cases h
    · cases h with
      | head => simp
      | tail _ h => exact .inl (hdigits _ h)
  · cases hx : t.exponent with
    | none => simp [exponentText, hx] at h
    | some x =>
      simp only [exponentText, hx, Option.elim_some, ExponentPart.text, List.mem_cons, List.mem_append] at h
      obtain rfl | h | h := h
      · cases x.upper <;> simp
      · obtain hs | hs | hs : x.sign = none ∨ x.sign = some false ∨ x.sign = some true := by
          cases x.sign with
          | none => simp
          | some b => cases b <;> simp
        all_goals simp [signText, hs] at h
        all_goals simp [h]
      · exact .inl (hdigits _ h)

end NumberToken

def Unreserved (c : CodeUnit) : Prop := delimiter c = false ∧ c ≠ ofChar '[' ∧ c ≠ ofChar '\x7b' ∧ c ≠ ofChar '"'

instance (c : CodeUnit) : Decidable (Unreserved c) := inferInstanceAs (Decidable (_ ∧ _))

theorem unreserved_of_all {text : Utf16} (h : (text.all fun c => Unreserved c) = true) : ∀ c ∈ text, Unreserved c :=
  fun c hc => of_decide_eq_true (List.all_eq_true.mp h c hc)

theorem unreserved_number (t : NumberToken) : ∀ c ∈ ofText t.text,
    Unreserved c ∧ c ≠ ofChar 't' ∧ c ≠ ofChar 'f' ∧ c ≠ ofChar 'n' := by
  have hdigits : ∀ d : Digit, Unreserved (ofChar d.toChar) ∧ ofChar d.toChar ≠ ofChar 't' ∧
      ofChar d.toChar ≠ ofChar 'f' ∧ ofChar d.toChar ≠ ofChar 'n' := by decide
  have hothers : (['-', '+', '.', 'e', 'E'].all fun x => Unreserved (ofChar x) ∧ ofChar x ≠ ofChar 't' ∧
      ofChar x ≠ ofChar 'f' ∧ ofChar x ≠ ofChar 'n') = true := by decide
  intro c hc
  obtain ⟨x, hx, rfl⟩ := List.mem_map.mp hc
  obtain ⟨d, rfl⟩ | hx := t.mem_text hx
  · exact hdigits d
  · exact of_decide_eq_true (List.all_eq_true.mp hothers x hx)

theorem text_ne_nil (t : NumberToken) : ofText t.text ≠ [] := by
  have hwhole := t.whole_ne_nil
  simp [ofText, NumberToken.text, NumberToken.unsignedText, hwhole]

/-! ## Values -/

section Reading

variable {δ : Type} {checkString : Utf16 → Except String Utf16} {number : Utf16 → δ} {writeNumber : δ → Utf16}

theorem readString_quote {s : Utf16} (h : checkString s = .ok s) (text : Utf16) :
    readString checkString (quote s ++ text) = .ok (s, text) := by
  simp [readString, quote, readUnits_escapeUnits, h]

theorem readKey_member {key : Utf16} (h : checkString key = .ok key) (value text : Utf16) :
    readKey checkString (member key value ++ text) = .ok (key, value ++ text) := by
  rw [readKey, member, List.append_assoc, readString_quote h]
  rfl

theorem readValue_token {token text : Utf16} {fuel : Nat} (hne : token ≠ []) (hplain : ∀ c ∈ token, Unreserved c)
    (htext : TokenEnd text) (hfuel : token.length ≤ fuel) :
    readValue checkString number writeNumber fuel (token ++ text) =
      .ok (writeToken number writeNumber token, text) := by
  cases fuel with
  | zero => exact absurd (List.eq_nil_of_length_eq_zero (Nat.le_zero.mp hfuel)) hne
  | succ fuel =>
    rw [readValue, takeWhile_token (fun c hc => (hplain c hc).1) htext,
      dropWhile_token (fun c hc => (hplain c hc).1) htext]
    obtain ⟨c, token, rfl⟩ := List.exists_cons_of_ne_nil hne
    obtain ⟨-, hbracket, hbrace, hquote⟩ := hplain c List.mem_cons_self
    simp [hbracket, hbrace, hquote]

structure ReadsElements {β : Type} (read : Nat → Utf16 → Except ReadError (β × Utf16))
    (loop : Nat → Utf16 → Except ReadError (List β × Utf16)) : Prop where
  last : ∀ {fuel text element rest}, read fuel text = .ok (element, rest) → rest.head? ≠ some (ofChar ',') →
    loop (fuel + 1) text = .ok ([element], rest.tail)
  more : ∀ {fuel text element rest elements rest'}, read fuel text = .ok (element, rest) →
    rest.head? = some (ofChar ',') → loop fuel rest.tail = .ok (elements, rest') →
    loop (fuel + 1) text = .ok (element :: elements, rest')

theorem ReadsElements.read_all {α β : Type} {read : Nat → Utf16 → Except ReadError (β × Utf16)}
    {loop : Nat → Utf16 → Except ReadError (List β × Utf16)} (h : ReadsElements read loop)
    {write : α → Utf16} {result : α → β} {elements : List α} {close : CodeUnit} {rest : Utf16} {fuel : Nat}
    (hclose : delimiter close = true ∧ close ≠ ofChar ',') (hne : elements ≠ [])
    (hread : ∀ a ∈ elements, ∀ fuel rest, (write a).length ≤ fuel → TokenEnd rest →
      read fuel (write a ++ rest) = .ok (result a, rest))
    (hfuel : ([ofChar ','].intercalate (elements.map write)).length < fuel) :
    loop fuel ([ofChar ','].intercalate (elements.map write) ++ close :: rest) = .ok (elements.map result, rest) := by
  induction elements generalizing fuel with
  | nil => exact absurd rfl hne
  | cons a elements ih =>
    cases fuel with
    | zero => exact absurd hfuel (Nat.not_lt_zero _)
    | succ fuel =>
      cases elements with
      | nil =>
        simp only [List.map_cons, List.map_nil, List.intercalate_singleton] at hfuel ⊢
        have hlast := hread a List.mem_cons_self fuel (close :: rest) (by omega) (ends_cons hclose.1 rest)
        exact h.last hlast (by simpa using hclose.2)
      | cons b elements =>
        have hrest := @ih fuel (List.cons_ne_nil b elements) (fun a ha => hread a (List.mem_cons_of_mem _ ha))
        simp only [List.map_cons, List.intercalate_cons_cons, List.append_assoc, List.length_append, List.length_cons,
          List.cons_append, List.nil_append] at hfuel hrest ⊢
        exact h.more (hread a List.mem_cons_self fuel _ (by omega) (ends_cons (by decide) _)) rfl (hrest (by omega))

theorem readsItems : ReadsElements (readValue checkString number writeNumber)
    (readItems checkString number writeNumber) := by
  constructor
  · intro fuel text element rest hread hrest
    simp [readItems, hread, hrest, bind, Except.bind, pure, Except.pure]
  · intro fuel text element rest elements rest' hread hrest hloop
    simp [readItems, hread, hrest, hloop, bind, Except.bind, pure, Except.pure]

def readMember (checkString : Utf16 → Except String Utf16) (number : Utf16 → δ) (writeNumber : δ → Utf16) (fuel : Nat)
    (text : Utf16) : Except ReadError ((Utf16 × Utf16) × Utf16) := do
  let (key, text) ← readKey checkString text
  let (value, text) ← readValue checkString number writeNumber fuel text
  pure ((key, value), text)

theorem readMembers_succ (fuel : Nat) (text : Utf16) : readMembers checkString number writeNumber (fuel + 1) text = (do
    let (element, text) ← readMember checkString number writeNumber fuel text
    if text.head? = some (ofChar ',') then do
      let (members, text) ← readMembers checkString number writeNumber fuel text.tail
      pure (element :: members, text)
    else pure ([element], text.tail)) := by
  rw [readMembers, readMember]
  simp only [bind_assoc, pure_bind]

theorem readsMembers :
    ReadsElements (readMember checkString number writeNumber) (readMembers checkString number writeNumber) := by
  constructor
  · intro fuel text element rest hread hrest
    simp [readMembers_succ, hread, hrest, bind, Except.bind, pure, Except.pure]
  · intro fuel text element rest elements rest' hread hrest hloop
    simp [readMembers_succ, hread, hrest, hloop, bind, Except.bind, pure, Except.pure]

/-! ## Whole values -/

def Reads (checkString : Utf16 → Except String Utf16) (number : Utf16 → δ) (writeNumber : δ → Utf16)
    (v : JsValue) : Prop :=
  ∀ fuel rest, v.stringify.length ≤ fuel → TokenEnd rest →
    readValue checkString number writeNumber fuel (v.stringify ++ rest) = .ok (v.sortKeys.stringify, rest)

theorem stringify_cons (v : JsValue) : ∃ c text, v.stringify = c :: text ∧ delimiter c = false := by
  cases v with
  | null => exact ⟨_, _, rfl, by decide⟩
  | bool b => cases b <;> exact ⟨_, _, rfl, by decide⟩
  | number token =>
    obtain ⟨c, text, h⟩ := List.exists_cons_of_ne_nil (text_ne_nil token)
    exact ⟨c, text, h, (unreserved_number token c (h ▸ List.mem_cons_self)).1.1⟩
  | string s => exact ⟨_, _, rfl, by decide⟩
  | array items => exact ⟨_, _, rfl, by decide⟩
  | object members => exact ⟨_, _, rfl, by decide⟩

theorem readValue_brackets {texts items : List Utf16} {c : CodeUnit} {text rest : Utf16} {fuel : Nat}
    (hstart : [ofChar ','].intercalate texts = c :: text) (hc : delimiter c = false)
    (hloop : readItems checkString number writeNumber fuel ([ofChar ','].intercalate texts ++ ofChar ']' :: rest) =
      .ok (items, rest)) :
    readValue checkString number writeNumber (fuel + 1) (brackets texts ++ rest) = .ok (brackets items, rest) := by
  have hopen : c ≠ ofChar ']' := by
    rintro rfl
    revert hc
    decide
  rw [readValue, brackets]
  simp only [List.cons_append, List.append_assoc, List.nil_append, List.head?_cons, List.tail_cons, if_true]
  rw [if_neg (by simp [hstart, hopen]), hloop]
  rfl

theorem readValue_braces {texts members : List (Utf16 × Utf16)} {c : CodeUnit} {text rest : Utf16} {fuel : Nat}
    (hstart : [ofChar ','].intercalate (texts.map fun m => member m.1 m.2) = c :: text) (hc : delimiter c = false)
    (hloop : readMembers checkString number writeNumber fuel
      ([ofChar ','].intercalate (texts.map fun m => member m.1 m.2) ++ ofChar '\x7d' :: rest) = .ok (members, rest)) :
    readValue checkString number writeNumber (fuel + 1) (braces texts ++ rest) =
      .ok (braces (members.insertionSort fun a b => a.1 ≤ b.1), rest) := by
  have hopen : c ≠ ofChar '\x7d' := by
    rintro rfl
    revert hc
    decide
  rw [readValue, braces]
  simp only [List.cons_append, List.append_assoc, List.nil_append, List.head?_cons, List.tail_cons]
  rw [if_neg (by decide), if_pos trivial, if_neg (by simp [hstart, hopen]), hloop]
  rfl

theorem intercalate_cons_eq (c : CodeUnit) (text : Utf16) (texts : List Utf16) (sep : Utf16) :
    ∃ rest, sep.intercalate ((c :: text) :: texts) = c :: rest := by
  cases texts with
  | nil => exact ⟨text, by simp⟩
  | cons next texts => exact ⟨_, by rw [List.intercalate_cons_cons, List.append_assoc, List.cons_append]⟩

theorem reads_member {m : Utf16 × JsValue} (hkey : checkString m.1 = .ok m.1)
    (h : Reads checkString number writeNumber m.2) {fuel : Nat} {rest : Utf16}
    (hfuel : (member m.1 m.2.stringify).length ≤ fuel) (hrest : TokenEnd rest) :
    readMember checkString number writeNumber fuel (member m.1 m.2.stringify ++ rest) =
      .ok ((m.1, m.2.sortKeys.stringify), rest) := by
  have hlen : m.2.stringify.length ≤ fuel := by
    simp only [member, List.length_append, List.length_cons] at hfuel
    omega
  rw [readMember, readKey_member hkey]
  change (readValue checkString number writeNumber fuel (m.2.stringify ++ rest) >>= _) = _
  rw [h fuel rest hlen hrest]
  rfl

theorem reads (v : JsValue) (hcanonical : v.Canonical (fun token => writeNumber (number token)))
    (haccepted : v.Accepted checkString) : Reads checkString number writeNumber v := by
  induction v using JsValue.induct with
  | null =>
    intro fuel rest hfuel hrest
    exact readValue_token (by decide) (unreserved_of_all (by decide)) hrest hfuel
  | bool b =>
    intro fuel rest hfuel hrest
    cases b <;> exact readValue_token (by decide) (unreserved_of_all (by decide)) hrest hfuel
  | number token =>
    intro fuel rest hfuel hrest
    have hplain := unreserved_number token
    have hwrite : writeToken number writeNumber (ofText token.text) = ofText token.text := by
      rw [writeToken]
      split
      · rfl
      · exact hcanonical token (JsValue.parts_self _)
    simp only [JsValue.stringify, JsValue.sortKeys] at hfuel ⊢
    rw [readValue_token (text_ne_nil token) (fun c hc => (hplain c hc).1) hrest hfuel, hwrite]
  | string s =>
    intro fuel rest hfuel hrest
    cases fuel with
    | zero => simp [JsValue.stringify, quote] at hfuel
    | succ fuel =>
      have hread := readString_quote (haccepted.strings s (JsValue.parts_self _)) rest
      rw [readValue, JsValue.stringify, JsValue.sortKeys, JsValue.stringify, hread]
      simp [quote, ofChar, bind, Except.bind, pure, Except.pure]
  | array items ih =>
    intro fuel rest hfuel hrest
    have ih : ∀ v ∈ items, Reads checkString number writeNumber v :=
      fun v hv => ih v hv (hcanonical.item hv) (haccepted.item hv)
    cases fuel with
    | zero => simp [JsValue.stringify, brackets] at hfuel
    | succ fuel =>
      simp only [JsValue.stringify, JsValue.sortKeys, JsValue.stringifyItems_eq, JsValue.sortItems_eq,
        List.map_map] at hfuel ⊢
      cases items with
      | nil => rfl
      | cons v items =>
        obtain ⟨c, text, hv, hc⟩ := stringify_cons v
        obtain ⟨_, hstart⟩ := intercalate_cons_eq c text (items.map JsValue.stringify) [ofChar ',']
        refine readValue_brackets (by rw [List.map_cons, hv, hstart]) hc
          (readsItems.read_all (by decide) (by simp) ih ?_)
        simp only [brackets, List.length_cons, List.length_append] at hfuel
        omega
  | object members ih =>
    intro fuel rest hfuel hrest
    have ih : ∀ m ∈ members, Reads checkString number writeNumber m.2 :=
      fun m hm => ih m hm (hcanonical.member hm) (haccepted.member hm)
    cases fuel with
    | zero => simp [JsValue.stringify, braces] at hfuel
    | succ fuel =>
      simp only [JsValue.stringify, JsValue.sortKeys, JsValue.stringifyMembers_eq, JsValue.sortMembers_eq,
        SortByKey.map_insertionSort, List.map_map] at hfuel ⊢
      cases members with
      | nil => rfl
      | cons m members =>
        have htexts : ((m :: members).map (Prod.map id JsValue.stringify)).map (fun m => member m.1 m.2) =
            (m :: members).map fun m => member m.1 m.2.stringify := by
          simp [Function.comp_def]
        obtain ⟨text, hstart⟩ := intercalate_cons_eq (ofChar '"')
          (escapeUnits m.1 ++ [ofChar '"'] ++ ofChar ':' :: m.2.stringify)
          (members.map fun m => member m.1 m.2.stringify) [ofChar ',']
        refine readValue_braces (show _ = ofChar '"' :: text from ?_) (by decide) ?_
        · rw [htexts, ← hstart]
          rfl
        · rw [htexts]
          refine readsMembers.read_all (by decide) (by simp)
            (fun m hm fuel rest hfuel hrest => reads_member (haccepted.key hm) (ih m hm) hfuel hrest) ?_
          simp only [braces, List.length_cons, List.length_append, htexts] at hfuel
          omega

theorem canonicalText_stringify {v : JsValue} (hcanonical : v.Canonical (fun token => writeNumber (number token)))
    (haccepted : v.Accepted checkString) :
    canonicalText checkString number writeNumber v.stringify = .ok v.sortKeys.stringify := by
  have hread := reads v hcanonical haccepted v.stringify.length [] le_rfl ends_nil
  rw [List.append_nil] at hread
  rw [canonicalText, hread]
  rfl

end Reading

end Workhorse
