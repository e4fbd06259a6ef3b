import TreeReduction.Proofs.Assembly

set_option autoImplicit false

/-!
# Reading a document spread over lines

A document that is written with line breaks is read as its tokens too: the blanks of the layout
stand between tokens, and between tokens they mean nothing. The writer appends to what it has, so
everything is said of the text so far. Either it is read the same whatever comes next
(`Json.Ready`), or it ends in a word and is as long as no word goes on with what comes next
(`Json.Ended`). A value is only ever written where the text is ready for one.
-/

namespace TreeReduction.Json

/-- The text so far is read as some tokens, whatever comes next. -/
def Ready (out : String) (ts : List Token) : Prop :=
  ∀ cs, lex? (out.toList ++ cs) = (lex? cs).map (ts ++ ·)

/-- The text so far is read as some tokens, if no word goes on with what comes next. -/
def Ended (out : String) (ts : List Token) : Prop :=
  ∀ cs, Delimited cs → lex? (out.toList ++ cs) = (lex? cs).map (ts ++ ·)

section Writing

variable {out next : String} {ts : List Token}

theorem ready_empty : Ready "" [] := by
  intro cs
  simp

theorem Ready.ended (h : Ready out ts) : Ended out ts :=
  fun cs _ => h cs

/-! ## Tokens -/

/-- A token may be written where the text is ready. -/
theorem Ready.append (h : Ready out ts) {t : Token} (ht : t.Readable)
    (hnext : next.toList = out.toList ++ t.spelling) : Ended next (ts ++ [t]) := by
  intro cs hcs
  rw [hnext, List.append_assoc, h, lex?_spelling ht fun _ => hcs, Option.map_map]
  simp [Function.comp_def]

/-- A token that is no word leaves the text ready. -/
theorem Ready.append_of_not_word (h : Ready out ts) {t : Token} (ht : t.Readable)
    (hword : ¬t.IsWord) (hnext : next.toList = out.toList ++ t.spelling) :
    Ready next (ts ++ [t]) := by
  intro cs
  rw [hnext, List.append_assoc, h, lex?_spelling ht fun hw => absurd hw hword, Option.map_map]
  simp [Function.comp_def]

/-- A mark may follow a word. -/
theorem Ended.append (h : Ended out ts) {t : Token} (ht : t.IsMark)
    (hnext : next.toList = out.toList ++ t.spelling) : Ready next (ts ++ [t]) := by
  intro cs
  rw [hnext, List.append_assoc, h _ (ht.delimited cs),
    lex?_spelling ht.readable fun hw => absurd hw ht.not_word, Option.map_map]
  simp [Function.comp_def]

/-! ## Blanks -/

theorem lex?_space {c : Char} (hc : isSpace c = true) (cs : List Char) :
    lex? (c :: cs) = lex? cs := by
  have hstep : Scanner.between.step c = some (.between, []) := by
    rw [Scanner.step, Scanner.outside, if_pos hc]
  exact Scanner.run_cons_silent hstep cs

theorem Ready.push_space (h : Ready out ts) {c : Char} (hc : isSpace c = true) :
    Ready (out.push c) ts := by
  intro cs
  rw [String.toList_push, List.append_assoc, List.singleton_append, h, lex?_space hc]

/-- A line break may follow a word. -/
theorem Ended.newLine (h : Ended out ts) (level : Nat) : Ready (newLine out level) ts := by
  have hbreak : Ready (out.push '\n') ts := by
    intro cs
    have hcs : Delimited ('\n' :: cs) := by simp [Delimited, endsWord, isSpace]
    rw [String.toList_push, List.append_assoc, List.singleton_append, h _ hcs, lex?_space rfl]
  have hindent : ∀ (n : Nat) (s : String), Ready s ts →
      Ready (n.repeat (fun out => out ++ "  ") s) ts := by
    intro n
    induction n with
    | zero => exact fun _ hs => hs
    | succ n ih =>
      intro s hs
      have htwo : ∀ u : String, u ++ "  " = (u.push ' ').push ' ' := by
        intro u
        rw [← String.toList_inj]
        simp
      rw [Nat.repeat, htwo]
      exact ((ih s hs).push_space rfl).push_space rfl
  exact hindent level _ hbreak

/-! ## Documents -/

/-- A document may be written where the text is ready. -/
def WritesPretty (json : Json) : Prop :=
  ∀ (out : String) (ts : List Token) (level : Nat), Ready out ts →
    Ended (writePretty out level json) (ts ++ json.tokens)

/-- The items of an array after the first, its closing bracket included. -/
theorem ready_writePrettyItems {items : List Json} (hitems : ∀ x ∈ items, x.WritesPretty)
    (h : Ended out ts) (level outer : Nat) :
    Ready ((newLine (writePrettyItems out level false items) outer).push ']')
      (ts ++ tokensItems false items) := by
  induction items generalizing out ts with
  | nil =>
    exact (h.newLine outer).append_of_not_word (t := .closeArray) trivial id
      (by simp [writePrettyItems, Token.spelling])
  | cons x rest ih =>
    rw [List.forall_mem_cons] at hitems
    have hcomma : Ready (out.push ',') (ts ++ [.comma]) :=
      h.append isMark_comma (by simp [Token.spelling])
    have hitem := hitems.1 _ _ level (hcomma.ended.newLine level)
    have hrest := ih hitems.2 hitem
    simpa [writePrettyItems, tokensItems, separator] using hrest

/-- The name of a member and the colon after it. -/
theorem Ready.writeName (h : Ready out ts) (name : String) :
    Ready (writeString out name ++ ": ") (ts ++ [.str name, .colon]) := by
  have hname : Ready (writeString out name) (ts ++ [.str name]) :=
    h.append_of_not_word trivial id (toList_writeString_eq out name)
  have hcolon : Ready ((writeString out name).push ':') (ts ++ [.str name] ++ [.colon]) :=
    hname.append_of_not_word trivial id (by simp [Token.spelling])
  have htext : writeString out name ++ ": " = ((writeString out name).push ':').push ' ' := by
    rw [← String.toList_inj]
    simp
  rw [htext]
  simpa using hcolon.push_space (c := ' ') rfl

/-- The members of an object after the first, its closing brace included. -/
theorem ready_writePrettyMembers {members : List (String × Json)}
    (hmembers : ∀ m ∈ members, (m.2 : Json).WritesPretty) (h : Ended out ts) (level outer : Nat) :
    Ready ((newLine (writePrettyMembers out level false members) outer).push '\x7d')
      (ts ++ tokensMembers false members) := by
  induction members generalizing out ts with
  | nil =>
    exact (h.newLine outer).append_of_not_word (t := .closeObject) trivial id
      (by simp [writePrettyMembers, Token.spelling])
  | cons m rest ih =>
    rw [List.forall_mem_cons] at hmembers
    have hcomma : Ready (out.push ',') (ts ++ [.comma]) :=
      h.append isMark_comma (by simp [Token.spelling])
    have hname := (hcomma.ended.newLine level).writeName m.1
    have hrest := ih hmembers.2 (hmembers.1 _ _ level hname)
    simpa [writePrettyMembers, tokensMembers, separator] using hrest

end Writing

/-- A document whose numbers are read exactly is read as its tokens. -/
theorem writesPretty_of_readable {json : Json} (h : json.Readable) : json.WritesPretty := by
  intro out ts level hready
  induction json using induct generalizing out ts level with
  | null => exact hready.append trivial (by simp [writePretty, Token.spelling])
  | bool b => exact hready.append trivial (by cases b <;> simp [writePretty, Token.spelling])
  | number n =>
    exact hready.append (h (.number n) (by simp [tokens])) (by simp [writePretty, Token.spelling])
  | str s => exact hready.append trivial (toList_writeString_eq out s)
  | array items ih =>
    rw [readable_array_iff] at h
    have hopen : Ready (out.push '[') (ts ++ [.openArray]) :=
      hready.append_of_not_word trivial id (by simp [Token.spelling])
    cases items with
    | nil =>
      have hclose : Ready (out ++ "[]") (ts ++ [.openArray] ++ [.closeArray]) :=
        hopen.append_of_not_word trivial id (by simp [Token.spelling])
      simpa [writePretty, tokens, tokensItems] using hclose.ended
    | cons x rest =>
      have hwrites : ∀ y ∈ x :: rest, y.WritesPretty :=
        fun y hy out ts level => ih y hy (h y hy) out ts level
      rw [List.forall_mem_cons] at hwrites
      have hitem := hwrites.1 _ _ (level + 1) (hopen.ended.newLine (level + 1))
      have hall := ready_writePrettyItems hwrites.2 hitem (level + 1) level
      simpa [writePretty, writePrettyItems, tokens, tokensItems, separator] using hall.ended
  | object members ih =>
    rw [readable_object_iff] at h
    have hopen : Ready (out.push '\x7b') (ts ++ [.openObject]) :=
      hready.append_of_not_word trivial id (by simp [Token.spelling])
    cases members with
    | nil =>
      have hclose : Ready (out ++ "\x7b\x7d") (ts ++ [.openObject] ++ [.closeObject]) :=
        hopen.append_of_not_word trivial id (by simp [Token.spelling])
      simpa [writePretty, tokens, tokensMembers] using hclose.ended
    | cons m rest =>
      have hwrites : ∀ o ∈ m :: rest, (o.2 : Json).WritesPretty :=
        fun o ho out ts level => ih o ho (h o ho) out ts level
      rw [List.forall_mem_cons] at hwrites
      have hname := (hopen.ended.newLine (level + 1)).writeName m.1
      have hmember := hwrites.1 _ _ (level + 1) hname
      have hall := ready_writePrettyMembers hwrites.2 hmember (level + 1) level
      simpa [writePretty, writePrettyMembers, tokens, tokensMembers, separator] using hall.ended

/-- A document spread over lines is read as its tokens. -/
theorem lex?_pretty {json : Json} (h : json.Readable) :
    lex? (pretty json).toList = some json.tokens := by
  have hlex := writesPretty_of_readable h "" [] 0 ready_empty [] (by simp [Delimited])
  have hnil : lex? [] = some [] := rfl
  simpa [pretty, hnil] using hlex

/-- A document that nests within the bound is read back from its text spread over lines. -/
theorem parse?_pretty {json : Json} (hread : json.Readable) (hdepth : json.depth ≤ maxNesting) :
    parse? (pretty json) = some json :=
  parse?_of_lex? (lex?_pretty hread) hdepth

end TreeReduction.Json
