import TreeReduction.Proofs.Lexing

set_option autoImplicit false

/-!
# Reading a written document

A document that is written without blanks is the spelling of its tokens, one after the other
(`Json.toList_write`), and a scanner gives these tokens back (`Json.lex?_compact`). They leave no
doubt where a part of the document ends (`Json.tokens_append_inj`), and so a text is written for one
document only (`Json.compact_inj`).

Numbers have to be integers that fit 64 bits, since only these are read exactly. There is no bound
on how deep the document goes.
-/

namespace TreeReduction.Json

/-! ## Induction -/

/-- Induction over a document, with a hypothesis for every child of a container. -/
@[elab_as_elim]
theorem induct {motive : Json → Prop}
    (null : motive .null)
    (bool : ∀ b, motive (.bool b))
    (number : ∀ n, motive (.number n))
    (str : ∀ s, motive (.str s))
    (array : ∀ items, (∀ x ∈ items, motive x) → motive (.array items))
    (object : ∀ members, (∀ m ∈ members, motive m.2) → motive (.object members)) :
    ∀ json, motive json
  | .null => null
  | .bool b => bool b
  | .number n => number n
  | .str s => str s
  | .array items => array items fun x _hx => induct null bool number str array object x
  | .object members => object members fun m _hm => induct null bool number str array object m.2
  termination_by json => sizeOf json
  decreasing_by
    · have := List.sizeOf_lt_of_mem _hx
      simp only [Json.array.sizeOf_spec]
      omega
    · have := List.sizeOf_lt_of_mem _hm
      obtain ⟨name, value⟩ := m
      simp only [Prod.mk.sizeOf_spec] at this
      simp only [Json.object.sizeOf_spec]
      omega

/-! ## The tokens of a document -/

/-- The comma before all but the first. -/
def separator (first : Bool) : List Token :=
  if first then [] else [.comma]

mutual

/-- The tokens of a document in order. -/
def tokens : Json → List Token
  | .null => [.null]
  | .bool b => [.bool b]
  | .number n => [.number n]
  | .str s => [.str s]
  | .array items => .openArray :: tokensItems true items
  | .object members => .openObject :: tokensMembers true members

/-- The tokens of the items of an array up to its end. -/
def tokensItems (first : Bool) : List Json → List Token
  | [] => [.closeArray]
  | item :: rest => separator first ++ item.tokens ++ tokensItems false rest

/-- The tokens of the members of an object up to its end. -/
def tokensMembers (first : Bool) : List (String × Json) → List Token
  | [] => [.closeObject]
  | (name, value) :: rest =>
    separator first ++ .str name :: .colon :: value.tokens ++ tokensMembers false rest

end

/-- The tokens of a member. -/
def memberTokens (m : String × Json) : List Token :=
  .str m.1 :: .colon :: m.2.tokens

/-- Pieces with commas between them and a closing token after the last. -/
def joined (close : Token) (first : Bool) : List (List Token) → List Token
  | [] => [close]
  | piece :: rest => separator first ++ piece ++ joined close false rest

theorem tokensItems_eq (first : Bool) (items : List Json) :
    tokensItems first items = joined .closeArray first (items.map tokens) := by
  induction items generalizing first with
  | nil => rfl
  | cons x rest ih => rw [tokensItems, ih, List.map_cons, joined]

theorem tokensMembers_eq (first : Bool) (members : List (String × Json)) :
    tokensMembers first members = joined .closeObject first (members.map memberTokens) := by
  induction members generalizing first with
  | nil => rfl
  | cons m rest ih =>
    rw [tokensMembers, ih, List.map_cons, joined, memberTokens]

/-- The characters of a token; nothing is written for what stands for nothing. -/
def Token.spelling : Token → List Char
  | .openArray => ['[']
  | .closeArray => [']']
  | .openObject => ['\x7b']
  | .closeObject => ['\x7d']
  | .comma => [',']
  | .colon => [':']
  | .null => "null".toList
  | .bool b => (if b then "true" else "false").toList
  | .number n => n.text.toList
  | .str s => (literal s).toList
  | .void => []

/-- The characters of several tokens. -/
def spelled (tokens : List Token) : List Char :=
  tokens.flatMap Token.spelling

@[simp]
theorem spelled_nil : spelled [] = [] := rfl

@[simp]
theorem spelled_cons (t : Token) (ts : List Token) :
    spelled (t :: ts) = t.spelling ++ spelled ts := rfl

@[simp]
theorem spelled_append (ts us : List Token) : spelled (ts ++ us) = spelled ts ++ spelled us :=
  List.flatMap_append ..

/-! ## Writing spells the tokens -/

theorem toList_writeString_eq (out s : String) :
    (writeString out s).toList = out.toList ++ (Token.str s).spelling := by
  rw [Token.spelling, literal, toList_writeString, toList_writeString, String.toList_empty,
    List.nil_append]

theorem toList_separated (out : String) (first : Bool) :
    (if first then out else out.push ',').toList = out.toList ++ spelled (separator first) := by
  cases first <;> simp [separator, Token.spelling]

theorem toList_writeItems {items : List Json}
    (h : ∀ x ∈ items, ∀ out, (write out x).toList = out.toList ++ spelled x.tokens)
    (out : String) (first : Bool) :
    ((writeItems out first items).push ']').toList =
      out.toList ++ spelled (tokensItems first items) := by
  induction items generalizing out first with
  | nil => simp [writeItems, tokensItems, Token.spelling]
  | cons x rest ih =>
    rw [List.forall_mem_cons] at h
    rw [writeItems, ih h.2, h.1, toList_separated, tokensItems]
    simp

theorem toList_writeMembers {members : List (String × Json)}
    (h : ∀ m ∈ members, ∀ out, (write out m.2).toList = out.toList ++ spelled m.2.tokens)
    (out : String) (first : Bool) :
    ((writeMembers out first members).push '\x7d').toList =
      out.toList ++ spelled (tokensMembers first members) := by
  induction members generalizing out first with
  | nil => simp [writeMembers, tokensMembers, Token.spelling]
  | cons m rest ih =>
    rw [List.forall_mem_cons] at h
    rw [writeMembers, ih h.2, h.1, String.toList_push, toList_writeString_eq, toList_separated,
      tokensMembers]
    simp [Token.spelling]

/-- Writing a document appends the characters of its tokens. -/
theorem toList_write (json : Json) (out : String) :
    (write out json).toList = out.toList ++ spelled json.tokens := by
  induction json using induct generalizing out with
  | null => simp [write, tokens, Token.spelling]
  | bool b => cases b <;> simp [write, tokens, Token.spelling]
  | number n => simp [write, tokens, Token.spelling]
  | str s => simp [write, tokens, toList_writeString_eq]
  | array items ih =>
    rw [write, toList_writeItems ih, tokens]
    simp [Token.spelling]
  | object members ih =>
    rw [write, toList_writeMembers ih, tokens]
    simp [Token.spelling]

/-! ## Reading gives the tokens back -/

/-- Whether the characters of a token are read exactly. -/
def Token.Readable : Token → Prop
  | .number n => n.Fits
  | .void => False
  | _ => True

/-- Whether a token ends only where a delimiter follows. -/
def Token.IsWord : Token → Prop
  | .null => True
  | .bool _ => True
  | .number _ => True
  | _ => False

theorem lex?_mark {c : Char} {t : Token} (hspace : isSpace c = false) (hquote : c ≠ '"')
    (hmark : Token.ofMark? c = some t) (cs : List Char) :
    lex? (c :: cs) = (lex? cs).map (t :: ·) := by
  have hstep : Scanner.between.step c = some (.between, [t]) := by
    rw [Scanner.step, Scanner.outside, hspace, if_neg (by decide), if_neg hquote, hmark]
  rw [lex?, Scanner.run_cons hstep]
  rfl

theorem isWordLetter_of_mem_text {n : Int} {c : Char} (hc : c ∈ (Number.integer n).text.toList) :
    isWordLetter c = true := by
  have hdigit : ∀ k : Nat, c ∈ Nat.toDigits 10 k → isWordLetter c = true := by
    intro k hk
    simp [isWordLetter, Char.isAlphanum, isDigit_of_mem_toDigits hk]
  cases n with
  | ofNat n => exact hdigit n (toList_text_ofNat n ▸ hc)
  | negSucc n =>
    rw [toList_text_negSucc] at hc
    rcases List.mem_cons.1 hc with rfl | hc
    · rfl
    · exact hdigit (n + 1) hc

/-- The characters of a token are read as that token, and what follows as it would be alone. -/
theorem lex?_spelling {t : Token} (ht : t.Readable) {cs : List Char}
    (hcs : t.IsWord → Delimited cs) : lex? (t.spelling ++ cs) = (lex? cs).map (t :: ·) := by
  cases t with
  | openArray => exact lex?_mark rfl (by decide) rfl cs
  | closeArray => exact lex?_mark rfl (by decide) rfl cs
  | openObject => exact lex?_mark rfl (by decide) rfl cs
  | closeObject => exact lex?_mark rfl (by decide) rfl cs
  | comma => exact lex?_mark rfl (by decide) rfl cs
  | colon => exact lex?_mark rfl (by decide) rfl cs
  | null => exact lex?_word (by decide) (List.all_eq_true.1 rfl) rfl (hcs trivial)
  | bool b => cases b <;> exact lex?_word (by decide) (List.all_eq_true.1 rfl) rfl (hcs trivial)
  | number n =>
    cases n with
    | integer n =>
      have hword := Token.ofWord?_integer ht
      have hne : (Number.integer n).text.toList ≠ [] := by
        intro hnil
        have hnone : Token.ofWord? [] = none := rfl
        rw [hnil, hnone] at hword
        simp at hword
      exact lex?_word hne (fun c => isWordLetter_of_mem_text) hword (hcs trivial)
    | float x => exact absurd ht (by simp [Token.Readable, Number.Fits])
  | str s => exact lex?_literal s cs
  | void => exact absurd ht (by simp [Token.Readable])

/-- Tokens that are read one after the other, whatever follows that no word goes on with. -/
def LexesTo (tokens : List Token) : Prop :=
  ∀ cs, Delimited cs → lex? (spelled tokens ++ cs) = (lex? cs).map (tokens ++ ·)

/-- A token that ends by itself and also ends a word before it. -/
structure Token.IsMark (t : Token) : Prop where
  readable : t.Readable
  not_word : ¬t.IsWord
  delimited : ∀ cs, Delimited (t.spelling ++ cs)

theorem isMark_comma : Token.comma.IsMark :=
  ⟨trivial, id, by simp [Delimited, Token.spelling, endsWord, Token.ofMark?]⟩

theorem isMark_closeArray : Token.closeArray.IsMark :=
  ⟨trivial, id, by simp [Delimited, Token.spelling, endsWord, Token.ofMark?]⟩

theorem isMark_closeObject : Token.closeObject.IsMark :=
  ⟨trivial, id, by simp [Delimited, Token.spelling, endsWord, Token.ofMark?]⟩

theorem lexesTo_singleton {t : Token} (h : t.Readable) : LexesTo [t] := by
  intro cs hcs
  rw [spelled_cons, spelled_nil, List.append_nil, lex?_spelling h fun _ => hcs]
  rfl

/-- The name of a member and the colon after it end by themselves. -/
theorem lexesTo_memberTokens {m : String × Json} (h : LexesTo (m.2 : Json).tokens) :
    LexesTo (memberTokens m) := by
  intro cs hcs
  rw [memberTokens, spelled_cons, spelled_cons, List.append_assoc, List.append_assoc,
    lex?_spelling (t := .str m.1) trivial fun hword => hword.elim,
    lex?_spelling (t := .colon) trivial fun hword => hword.elim, h cs hcs]
  simp [Function.comp_def, Option.map_map]

theorem lex?_separator (first : Bool) (cs : List Char) :
    lex? (spelled (separator first) ++ cs) = (lex? cs).map (separator first ++ ·) := by
  cases first with
  | true => simp [separator]
  | false => exact lex?_spelling (t := .comma) trivial fun h => h.elim

section Joined

variable {close : Token}

/-- After the first piece comes a comma or the closing token. -/
theorem delimited_joined (hclose : close.IsMark) (pieces : List (List Token)) (cs : List Char) :
    Delimited (spelled (joined close false pieces) ++ cs) := by
  cases pieces with
  | nil => simpa [joined] using hclose.delimited cs
  | cons piece rest =>
    have hcomma := isMark_comma.delimited (spelled (piece ++ joined close false rest) ++ cs)
    simpa [joined, separator] using hcomma

theorem lex?_joined (hclose : close.IsMark) {pieces : List (List Token)}
    (h : ∀ piece ∈ pieces, LexesTo piece) (first : Bool) (cs : List Char) :
    lex? (spelled (joined close first pieces) ++ cs) =
      (lex? cs).map (joined close first pieces ++ ·) := by
  induction pieces generalizing first with
  | nil =>
    rw [joined, spelled_cons, spelled_nil, List.append_nil]
    exact lex?_spelling hclose.readable fun hword => absurd hword hclose.not_word
  | cons piece rest ih =>
    rw [List.forall_mem_cons] at h
    have hrest := delimited_joined hclose rest cs
    rw [joined, spelled_append, spelled_append, List.append_assoc, List.append_assoc,
      lex?_separator, h.1 _ hrest, ih h.2, Option.map_map, Option.map_map]
    simp [Function.comp_def]

theorem forall_mem_joined (hclose : close.IsMark) (first : Bool) (pieces : List (List Token)) :
    (∀ t ∈ joined close first pieces, t.Readable) ↔
      ∀ piece ∈ pieces, ∀ t ∈ piece, t.Readable := by
  induction pieces generalizing first with
  | nil => simpa [joined] using hclose.readable
  | cons piece rest ih =>
    have hcomma : ∀ t ∈ separator first, t.Readable := by
      cases first <;> simp [separator, isMark_comma.readable]
    rw [List.forall_mem_cons, ← ih false, joined, List.forall_mem_append, List.forall_mem_append,
      and_iff_right hcomma]

end Joined

/-- A document all of whose numbers are read exactly. -/
def Readable (json : Json) : Prop :=
  ∀ t ∈ json.tokens, t.Readable

@[simp]
theorem readable_null : Json.null.Readable :=
  List.forall_mem_singleton.2 trivial

@[simp]
theorem readable_str (s : String) : (Json.str s).Readable :=
  List.forall_mem_singleton.2 trivial

@[simp]
theorem readable_number_iff (n : Number) : (Json.number n).Readable ↔ n.Fits :=
  List.forall_mem_singleton

theorem forall_mem_memberTokens (m : String × Json) :
    (∀ t ∈ memberTokens m, t.Readable) ↔ (m.2 : Json).Readable := by
  have hname : (Token.str m.1).Readable := trivial
  have hcolon : Token.colon.Readable := trivial
  rw [memberTokens, List.forall_mem_cons, List.forall_mem_cons, and_iff_right hname,
    and_iff_right hcolon, Readable]

@[simp]
theorem readable_array_iff (items : List Json) :
    (Json.array items).Readable ↔ ∀ x ∈ items, x.Readable := by
  have hopen : Token.openArray.Readable := trivial
  rw [Readable, tokens, tokensItems_eq, List.forall_mem_cons, and_iff_right hopen,
    forall_mem_joined isMark_closeArray, List.forall_mem_map]
  rfl

@[simp]
theorem readable_object_iff (members : List (String × Json)) :
    (Json.object members).Readable ↔ ∀ m ∈ members, (m.2 : Json).Readable := by
  have hopen : Token.openObject.Readable := trivial
  rw [Readable, tokens, tokensMembers_eq, List.forall_mem_cons, and_iff_right hopen,
    forall_mem_joined isMark_closeObject, List.forall_mem_map]
  exact forall₂_congr fun m _ => forall_mem_memberTokens m

theorem lexesTo_tokens {json : Json} (h : json.Readable) : LexesTo json.tokens := by
  induction json using induct with
  | null => exact lexesTo_singleton trivial
  | bool b => exact lexesTo_singleton trivial
  | number n => exact lexesTo_singleton (h (.number n) (by simp [tokens]))
  | str s => exact lexesTo_singleton trivial
  | array items ih =>
    rw [readable_array_iff] at h
    have hitems : ∀ piece ∈ items.map tokens, LexesTo piece := by
      rw [List.forall_mem_map]
      exact fun x hx => ih x hx (h x hx)
    intro cs _
    rw [tokens, tokensItems_eq, spelled_cons, List.append_assoc,
      lex?_spelling (t := .openArray) trivial fun hword => hword.elim,
      lex?_joined isMark_closeArray hitems, Option.map_map]
    rfl
  | object members ih =>
    rw [readable_object_iff] at h
    have hmembers : ∀ piece ∈ members.map memberTokens, LexesTo piece := by
      rw [List.forall_mem_map]
      exact fun m hm => lexesTo_memberTokens (ih m hm (h m hm))
    intro cs _
    rw [tokens, tokensMembers_eq, spelled_cons, List.append_assoc,
      lex?_spelling (t := .openObject) trivial fun hword => hword.elim,
      lex?_joined isMark_closeObject hmembers, Option.map_map]
    rfl

/-- A document written without blanks is read as its tokens. -/
theorem lex?_compact {json : Json} (h : json.Readable) :
    lex? (compact json).toList = some json.tokens := by
  have hlex := lexesTo_tokens h [] (by simp [Delimited])
  have hnil : lex? [] = some [] := rfl
  rw [List.append_nil, hnil, Option.map_some, List.append_nil] at hlex
  rw [compact, toList_write, String.toList_empty, List.nil_append, hlex]

/-! ## Tokens determine the document -/

/-- Pieces of which none goes on where another ends, and none begins with the closing token, are
found again between the commas. -/
theorem joined_append_inj {α : Type} {f : α → List Token} {close : Token} (hcomma : close ≠ .comma)
    (hclose : ∀ (x : α) (s t : List Token), f x ++ s ≠ close :: t) {xs ys : List α}
    (hsplit : ∀ x ∈ xs, ∀ (y : α) (s t : List Token), f x ++ s = f y ++ t → x = y ∧ s = t)
    (first : Bool) {s t : List Token}
    (heq : joined close first (xs.map f) ++ s = joined close first (ys.map f) ++ t) :
    xs = ys ∧ s = t := by
  induction xs generalizing first ys with
  | nil =>
    cases ys with
    | nil => simpa [joined] using heq
    | cons y ys =>
      cases first with
      | true =>
        simp only [List.map_nil, List.map_cons, joined, separator, List.nil_append,
          List.append_assoc, if_true] at heq
        exact absurd heq.symm (hclose y _ s)
      | false => exact absurd heq (by simp [joined, separator, hcomma])
  | cons x xs ih =>
    cases ys with
    | nil =>
      cases first with
      | true =>
        simp only [List.map_nil, List.map_cons, joined, separator, List.nil_append,
          List.append_assoc, if_true] at heq
        exact absurd heq (hclose x _ t)
      | false => exact absurd heq (by simp [joined, separator, hcomma.symm])
    | cons y ys =>
      rw [List.forall_mem_cons] at hsplit
      simp only [List.map_cons, joined, List.append_assoc, List.append_cancel_left_eq] at heq
      obtain ⟨rfl, hrest⟩ := hsplit.1 y _ _ heq
      obtain ⟨rfl, rfl⟩ := ih hsplit.2 false hrest
      exact ⟨rfl, rfl⟩

/-- A document whose tokens cannot be mistaken for those of any other, whatever follows. -/
def Unmistakable (json : Json) : Prop :=
  ∀ (other : Json) (s t : List Token), json.tokens ++ s = other.tokens ++ t → json = other ∧ s = t

theorem tokensItems_append_inj {xs ys : List Json} (h : ∀ x ∈ xs, x.Unmistakable)
    {s t : List Token} (heq : tokensItems true xs ++ s = tokensItems true ys ++ t) :
    xs = ys ∧ s = t := by
  have hclose : ∀ (x : Json) (s t : List Token), x.tokens ++ s ≠ .closeArray :: t := by
    intro x s t
    cases x <;> simp [tokens]
  rw [tokensItems_eq, tokensItems_eq] at heq
  exact joined_append_inj (by decide) hclose h true heq

theorem tokensMembers_append_inj {xs ys : List (String × Json)}
    (h : ∀ m ∈ xs, (m.2 : Json).Unmistakable) {s t : List Token}
    (heq : tokensMembers true xs ++ s = tokensMembers true ys ++ t) : xs = ys ∧ s = t := by
  have hclose : ∀ (m : String × Json) (s t : List Token),
      memberTokens m ++ s ≠ .closeObject :: t := by
    simp [memberTokens]
  have hsplit : ∀ m ∈ xs, ∀ (o : String × Json) (s t : List Token),
      memberTokens m ++ s = memberTokens o ++ t → m = o ∧ s = t := by
    intro m hm o s t hmo
    simp only [memberTokens, List.cons_append, List.cons.injEq, Token.str.injEq, true_and] at hmo
    obtain ⟨hvalue, hst⟩ := h m hm o.2 s t hmo.2
    exact ⟨Prod.ext hmo.1 hvalue, hst⟩
  rw [tokensMembers_eq, tokensMembers_eq] at heq
  exact joined_append_inj (by decide) hclose hsplit true heq

/-- Tokens with a document at their front have no other there. -/
theorem tokens_append_inj (json : Json) : json.Unmistakable := by
  induction json using induct with
  | null => intro other s t heq; cases other <;> simp_all [tokens]
  | bool b => intro other s t heq; cases other <;> simp_all [tokens]
  | number n => intro other s t heq; cases other <;> simp_all [tokens]
  | str text => intro other s t heq; cases other <;> simp_all [tokens]
  | array items ih =>
    intro other s t heq
    cases other with
    | array others =>
      rw [tokens, tokens, List.cons_append, List.cons_append, List.cons.injEq] at heq
      obtain ⟨rfl, rfl⟩ := tokensItems_append_inj ih heq.2
      exact ⟨rfl, rfl⟩
    | _ => simp [tokens] at heq
  | object members ih =>
    intro other s t heq
    cases other with
    | object others =>
      rw [tokens, tokens, List.cons_append, List.cons_append, List.cons.injEq] at heq
      obtain ⟨rfl, rfl⟩ := tokensMembers_append_inj ih heq.2
      exact ⟨rfl, rfl⟩
    | _ => simp [tokens] at heq

/-- Documents with one text are one document. -/
theorem compact_inj {a b : Json} (ha : a.Readable) (hb : b.Readable) (h : compact a = compact b) :
    a = b := by
  have htokens : some a.tokens = some b.tokens := by
    rw [← lex?_compact ha, ← lex?_compact hb, h]
  have happend : a.tokens ++ [] = b.tokens ++ [] := by
    rw [Option.some.inj htokens]
  exact (tokens_append_inj a b [] [] happend).1

end TreeReduction.Json
