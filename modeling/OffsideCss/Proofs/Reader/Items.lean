import OffsideCss.Proofs.LineBreaks
import OffsideCss.Proofs.Reader.Lines
import OffsideCss.Proofs.StatementText
import OffsideCss.Reader.Items

/-! The lexemes of a statement read as its tokens do. -/

namespace OffsideCss

open Token (join)

namespace Reader

open Lexeme (spot plain)

variable {place : Place} {ts : List Token} {s : Statement}

theorem plain_spot (offset : Nat) (ts : List Token) : plain (spot offset ts) = ts :=
  Lexeme.map_spot offset ts

theorem cover_spot (offset : Nat) (ts : List Token) : Lexeme.cover (spot offset ts) = join ts := by
  rw [Lexeme.cover, plain_spot]

/-! ### Cutting whitespace off -/

theorem splitTrailing?_eq (ts : List Lexeme) : ∃ content space,
    splitTrailing? ts = some (content, space) ∧
      (plain content, plain space) = Token.splitTrailing (plain ts) := by
  have htake : ts.take (ts.length - ts.reverse.findIdx fun t => !t.isWhitespace) =
      (ts.reverse.dropWhile (·.isWhitespace)).reverse := by
    rw [List.dropWhile_eq_drop_findIdx_not, List.drop_reverse, List.reverse_reverse]
  have hdrop : ts.drop (ts.length - ts.reverse.findIdx fun t => !t.isWhitespace) =
      (ts.reverse.takeWhile (·.isWhitespace)).reverse := by
    rw [List.takeWhile_eq_take_findIdx_not, List.take_reverse, List.reverse_reverse]
  refine ⟨_, _, if_pos (Nat.sub_le _ _), ?_⟩
  rw [htake, hdrop]
  simp [Token.splitTrailing, plain, ← List.map_reverse, List.takeWhile_map, List.dropWhile_map,
    Function.comp_def]

theorem splitLeading?_eq (ts : List Lexeme) : ∃ space content,
    splitLeading? ts = some (space, content) ∧
      (plain space, plain content) = Token.splitLeading (plain ts) := by
  refine ⟨_, _, if_pos List.findIdx_le_length, ?_⟩
  rw [← List.takeWhile_eq_take_findIdx_not, ← List.dropWhile_eq_drop_findIdx_not]
  simp [Token.splitLeading, plain, List.takeWhile_map, List.dropWhile_map, Function.comp_def]

/-- What is looked for among lexemes is found where it stands. -/
theorem find?_spot (p : Token → Bool) (place : Place) (ts : List Token) :
    ((spot place.offset ts).find? fun t => p t.toToken) =
      (Token.locate? p place ts).map fun x => ⟨x.2, x.1.span x.2.text⟩ := by
  induction ts generalizing place with
  | nil => rfl
  | cons t ts ih =>
    rw [spot, List.find?_cons, Token.locate?_cons]
    cases hp : p t with
    | true => simp [Place.span]
    | false => simpa [hp, Place.after] using ih (place.after t.text)

theorem forbid_eq (cause : Cause) (p : Token → Bool) :
    forbid cause (fun t => p t.toToken) (spot s.place.offset s.tokens) =
      Reading.of (s.forbid cause p) := by
  rw [forbid, find?_spot, Statement.forbid]
  cases Token.locate? p s.place s.tokens <;> rfl

theorem forbidSemicolon_eq (s : Statement) :
    forbidSemicolon (spot s.place.offset s.tokens) = Reading.of s.forbidSemicolon :=
  forbid_eq _ fun t => t.kind = .semicolon

theorem forbidBrace_eq (s : Statement) :
    forbidBrace (spot s.place.offset s.tokens) = Reading.of s.forbidBrace :=
  forbid_eq _ fun t => t.kind.isBrace

theorem margins?_eq (t : Text) : margins? t = some (t.trimParts.1, t.trimParts.2.2) := by
  obtain ⟨left, right, ht, -, -, hnil, hparts⟩ := t.exists_trimParts
  rw [hparts, margins?]
  split
  · next h =>
    rw [h, hnil h, List.append_nil, List.append_nil] at ht
    rw [hnil h, ht]
  · have hstart : left ++ t.trimStart = t := by
      rw [← show t.takeWhile isBlank = left from congrArg Prod.fst hparts]
      exact List.takeWhile_append_dropWhile
    have hbytes := congrArg Text.bytes hstart
    rw [Text.bytes_append] at hbytes
    have hleft : t.slice? ⟨0, left.bytes⟩ = some left :=
      Text.slice?_eq_some.2 ⟨[], t.trimStart, hstart.symm, by rw [Text.bytes_nil, Nat.zero_add]⟩
    have hright : t.slice? ⟨left.bytes + t.trim.bytes, t.bytes⟩ = some right :=
      Text.slice?_eq_some.2 ⟨left ++ t.trim, [], by rw [List.append_nil, ← ht], by
        nth_rewrite 2 [ht]
        simp only [Text.bytes_append]⟩
    rw [Counter.sub?_of_le (by omega), show t.bytes - t.trimStart.bytes = left.bytes by omega]
    simp only [Option.bind_eq_bind, Option.bind_some, hleft, hright]
    rfl

/-- What a part is made of is known when it is a comment: the comment, and whitespace. -/
theorem comment?_eq (hk : s.kind = .comment) (hf : s.Formed) (hm : s.more = []) :
    comment? s.first.part = some s.comment := by
  have hspells := hf.spells
  have hhead : s.first.part.head? = some ⟨s.first.head, s.place.span s.first.head.text⟩ := rfl
  have hrest : splitAt? 1 s.first.part.tokens = some
      ([⟨s.first.head, s.place.span s.first.head.text⟩],
        spot (s.place.after s.first.head.text).offset s.rest) := by
    rw [Statement.rest, hm, List.flatMap_nil, List.append_nil]
    exact splitAt?_one _ _
  unfold comment? Statement.comment
  simp only [hhead, hrest, Option.bind_eq_bind, Option.bind_some]
  have hslash : ('/' : Char).utf8Size = 1 := rfl
  by_cases hl : s.first.head.kind = .lineComment
  · rw [hl] at hspells
    obtain ⟨body, hb⟩ := hspells
    have hbody : s.first.head.text.slice? ⟨2, s.first.head.text.bytes⟩ = some body :=
      Text.slice?_eq_some.2 ⟨['/', '/'], [], by rw [hb, List.append_nil]; rfl, by
        rw [hb, Text.bytes_cons, Text.bytes_cons, hslash, ← Nat.add_assoc]
        rfl⟩
    simp only [hl, if_true, hbody, Option.bind_some, margins?_eq]
    rw [hb]
    rfl
  · rw [hf.blockComment hk hl] at hspells
    obtain ⟨body, hb⟩ := hspells
    have hinside := hb ▸ Text.inside_blockComment body
    have hstop : Counter.sub? s.first.head.text.bytes 2 = some (2 + Text.bytes body) := by
      rw [hb, Text.bytes_append, Text.bytes_cons, Text.bytes_cons, hslash,
        show ('*' : Char).utf8Size = 1 from rfl, ← Nat.add_assoc]
      exact Counter.sub?_of_le (Nat.le_add_left _ _)
    have hbody : s.first.head.text.slice? ⟨2, 2 + Text.bytes body⟩ = some body :=
      Text.slice?_eq_some.2 ⟨['/', '*'], ['*', '/'], hb, rfl⟩
    simp only [hl, if_false, hinside, hstop, hbody, Option.bind_some, margins?_eq, cover_spot]
    rfl

theorem atRule?_eq (hk : s.kind = .atRule) (hf : s.Formed) :
    atRule? (spot s.place.offset s.tokens) = Reading.of s.atRule := by
  have hspells := hf.spells
  rw [hf.atRule hk] at hspells
  obtain ⟨name, hname, -⟩ := hspells
  have hdrop : s.first.head.text.drop 1 = name := by rw [hname]; rfl
  have hcut : s.first.head.text.cut? 1 = some (['@'], name) := by
    rw [hname]
    exact Text.cut?_append ['@'] name
  have hhead : (spot s.place.offset s.tokens).head? =
      some ⟨s.first.head, s.place.span s.first.head.text⟩ := rfl
  have hsplit : splitAt? 1 (spot s.place.offset s.tokens) =
      some ([⟨s.first.head, s.place.span s.first.head.text⟩],
        spot (s.place.after s.first.head.text).offset s.rest) := splitAt?_one _ _
  obtain ⟨header, trailing, htrailing, htrail⟩ :=
    splitTrailing?_eq (spot (s.place.after s.first.head.text).offset s.rest)
  obtain ⟨space, tokens, hleading, hlead⟩ := splitLeading?_eq header
  rw [plain_spot] at htrail
  unfold atRule? Statement.atRule
  rw [forbidSemicolon_eq, forbidBrace_eq]
  cases s.forbidSemicolon with
  | error fault => rfl
  | ok u =>
    cases s.forbidBrace with
    | error fault => rfl
    | ok u =>
      simp only [Reading.of_ok, pure_bind, hhead, hsplit, hcut, htrailing, hleading, liftM_some_bind,
        hdrop]
      by_cases hn : name = []
      · simp only [hn, if_true]
        rfl
      · simp only [hn, if_false, ← htrail, ← hlead]
        rfl

theorem rule?_eq (s : Statement) : rule? (spot s.place.offset s.tokens) = Reading.of s.rule := by
  obtain ⟨header, trailing, htrailing, htrail⟩ := splitTrailing?_eq (spot s.place.offset s.tokens)
  rw [plain_spot] at htrail
  unfold rule? Statement.rule
  rw [forbidBrace_eq]
  cases s.forbidBrace with
  | error fault => rfl
  | ok u =>
    simp only [Reading.of_ok, pure_bind, htrailing, liftM_some_bind, ← htrail]
    rfl

/-- Behind the property, nothing but whitespace and comments is read up to the colon. -/
theorem property?_between (place : Place) {between : Text} (h : between ≠ []) (property : Text) :
    property? property between (spot place.offset ts) =
      match Token.locate? (fun t => !t.kind.isTrivia) place ts with
      | some (found, t) => throw ⟨.propertySeparator, found.span t.text⟩
      | none => pure (property, between ++ join ts) := by
  induction ts generalizing place between with
  | nil => simp [property?, spot, Token.locate?, Token.placed]
  | cons t ts ih =>
    rw [spot, property?, Token.locate?_cons]
    cases hk : t.kind.isTrivia with
    | true =>
      have hrest : property? property (between ++ t.text) (spot (place.offset + t.text.bytes) ts) = _ :=
        ih (place.after t.text) (by simp [h])
      simpa using hrest
    | false =>
      simp only [h, if_false, Bool.false_eq_true, Bool.not_false, if_true]
      rfl

/-- The lexemes before a colon are the property, and what stands between it and the colon. -/
theorem property?_eq (place : Place) (h : ∀ t ∈ ts, t.text ≠ []) (property : Text) :
    property? property [] (spot place.offset ts) =
      match Token.locate? (fun t => !t.kind.isTrivia)
        (place.after (join (ts.takeWhile fun t => !t.kind.isTrivia)))
        (ts.dropWhile fun t => !t.kind.isTrivia) with
      | some (found, t) => throw ⟨.propertySeparator, found.span t.text⟩
      | none => pure (property ++ join (ts.takeWhile fun t => !t.kind.isTrivia),
          join (ts.dropWhile fun t => !t.kind.isTrivia)) := by
  induction ts generalizing place property with
  | nil => simp [property?, spot, Token.locate?, Token.placed]
  | cons t ts ih =>
    obtain ⟨ht, hts⟩ := List.forall_mem_cons.1 h
    rw [spot, property?]
    cases hk : t.kind.isTrivia with
    | true =>
      have hrest : property? property t.text (spot (place.offset + t.text.bytes) ts) = _ :=
        property?_between (place.after t.text) ht property
      simpa [hk, Token.locate?_cons] using hrest
    | false =>
      have hrest : property? (property ++ t.text) [] (spot (place.offset + t.text.bytes) ts) = _ :=
        ih (place.after t.text) hts _
      simpa [hk] using hrest

/-- The last lexeme that is not whitespace is the one that nothing but whitespace stands behind. -/
theorem find?_reverse_last (front : List Lexeme) {back : List Lexeme} {t : Lexeme}
    (ht : t.isWhitespace = false) (hback : ∀ u ∈ back, u.isWhitespace = true) :
    ((front ++ t :: back).reverse.find? fun u => !u.isWhitespace) = some t := by
  have hnone : back.reverse.find? (fun u => !u.isWhitespace) = none := by
    simpa [List.find?_eq_none] using hback
  rw [List.reverse_append, List.reverse_cons, List.append_assoc, List.find?_append, hnone,
    Option.none_or, List.singleton_append, List.find?_cons_of_pos (by simpa using ht)]

/-- The value of a declaration, or the colon where there is none, holds the last lexeme that is not
whitespace. -/
theorem find?_reverse_value {front back : List Lexeme} {sign : Lexeme} (h : sign.isWhitespace = false) :
    let value := back.dropWhile (·.isWhitespace)
    ((if value = [] then [sign] else value).reverse.find? fun t => !t.isWhitespace) =
      (front ++ sign :: back).reverse.find? fun t => !t.isWhitespace := by
  intro value
  have hback : back.takeWhile (·.isWhitespace) ++ value = back := List.takeWhile_append_dropWhile
  split
  · next hnil =>
    rw [hnil, List.append_nil] at hback
    have hspace : ∀ t ∈ back, t.isWhitespace = true := by
      rw [← hback]
      exact fun t ht => List.mem_takeWhile_imp (p := fun t : Lexeme => t.isWhitespace) ht
    rw [find?_reverse_last front h hspace]
    exact find?_reverse_last [] h (by simp)
  · next hne =>
    obtain ⟨t, rest, hvalue⟩ := List.exists_cons_of_ne_nil hne
    have ht : t.isWhitespace = false := by
      have hnot := List.head?_dropWhile_not (·.isWhitespace) back
      rwa [show back.dropWhile (·.isWhitespace) = t :: rest from hvalue] at hnot
    have hsome : (value.reverse.find? fun t => !t.isWhitespace).isSome :=
      List.find?_isSome.2 ⟨t, by simp [hvalue], by simp [ht]⟩
    rw [← hback, ← List.cons_append, ← List.append_assoc, List.reverse_append, List.find?_append,
      Option.or_of_isSome hsome]

/-- The colon that ends a property stands between two parts of the lexemes. -/
theorem exists_sign (offset : Nat) {before after : List Token} {colon : Token}
    (h : Token.splitSeparator? 0 ts = some (before, colon, after)) : ∃ sign back,
      spot offset ts = spot offset before ++ sign :: back ∧ sign.toToken = colon ∧
        sign.isWhitespace = false ∧ plain back = after := by
  have hspace : colon.isWhitespace = false := by
    rw [Token.isWhitespace, Token.kind_of_splitSeparator? h]
    rfl
  have hspot : spot offset ts = spot offset before ++
      spot (offset + (join before).bytes) (colon :: after) := by
    rw [← Token.splitSeparator?_append h, Lexeme.spot_append]
  exact ⟨_, _, hspot, rfl, hspace, plain_spot _ _⟩

theorem splitAt?_append_cons {α : Type} (front back : List α) (a : α) :
    splitAt? (front.length + 1) (front ++ a :: back) = some (front ++ [a], back) := by
  rw [List.append_cons, ← splitAt?_append, List.length_append, List.length_singleton]

theorem splitLeading_plain (ts : List Lexeme) : Token.splitLeading (plain ts) =
    (plain (ts.takeWhile (·.isWhitespace)), plain (ts.dropWhile (·.isWhitespace))) := by
  simp [Token.splitLeading, plain, List.takeWhile_map, List.dropWhile_map, Function.comp_def]

theorem declaration?_eq (h : ∀ t ∈ s.tokens, t.text ≠ []) : ∃ content,
    declaration? (spot s.place.offset s.tokens) = Reading.of (s.declaration.map (·, content)) ∧
      (content.reverse.find? fun t => !t.isWhitespace) =
        (spot s.place.offset s.tokens).reverse.find? fun t => !t.isWhitespace := by
  unfold declaration? Statement.declaration
  rw [forbidSemicolon_eq, forbidBrace_eq, separator?_eq, Lexeme.map_spot]
  cases s.forbidSemicolon with
  | error fault => exact ⟨_, rfl, rfl⟩
  | ok u =>
    cases s.forbidBrace with
    | error fault => exact ⟨_, rfl, rfl⟩
    | ok u =>
      have hhead : (spot s.place.offset s.tokens).head? =
          some ⟨s.first.head, s.place.span s.first.head.text⟩ := rfl
      simp only [Reading.of_ok, pure_bind, hhead, liftM_some_bind]
      cases hsep : Token.splitSeparator? 0 s.tokens with
      | none => exact ⟨_, rfl, rfl⟩
      | some found =>
        obtain ⟨before, colon, after⟩ := found
        have hbefore : ∀ t ∈ before, t.text ≠ [] := fun t ht =>
          h t (Token.splitSeparator?_append hsep ▸ List.mem_append_left _ ht)
        obtain ⟨sign, back, hspot, hsign, hspace, hafter⟩ := exists_sign s.place.offset hsep
        have hproperty := property?_eq s.place hbefore []
        have hlength : before.length = (spot s.place.offset before).length :=
          (Lexeme.length_spot _ _).symm
        generalize spot s.place.offset before = front at hspot hproperty hlength
        have hcolon : (front ++ sign :: back)[front.length]? = some sign := by simp
        simp only [hspot, Option.map_some, hlength, splitAt?_append, splitAt?_append_cons, hcolon,
          liftM_some_bind, hproperty]
        cases Token.locate? (fun t => !t.kind.isTrivia)
          (s.place.after (join (before.takeWhile fun t => !t.kind.isTrivia)))
          (before.dropWhile fun t => !t.kind.isTrivia) with
        | some found => exact ⟨_, rfl, rfl⟩
        | none =>
          simp only [pure_bind, List.nil_append]
          by_cases hn : before.takeWhile (fun t => !t.kind.isTrivia) = []
          · simp only [hn, if_true]
            exact ⟨_, rfl, rfl⟩
          · obtain ⟨t, name, hname⟩ := List.exists_cons_of_ne_nil hn
            have ht : t ∈ before := (List.takeWhile_prefix _).subset (hname ▸ List.mem_cons_self)
            have hne : join (before.takeWhile fun t => !t.kind.isTrivia) ≠ [] := by
              rw [hname, Token.join_cons]
              exact List.append_ne_nil_of_left_ne_nil (hbefore t ht) _
            simp only [hn, hne, if_false, ← hafter, splitLeading_plain]
            rw [← hsign]
            exact ⟨_, rfl, find?_reverse_value hspace⟩

/-- The lexemes of a statement are read as its item. -/
theorem item?_eq (hf : s.Formed) (hm : s.kind = .comment → s.more = [])
    (hne : ∀ t ∈ s.tokens, t.text ≠ []) : ∃ content,
      item? s.kind s.first.part (spot s.place.offset s.tokens) =
          Reading.of (s.item.map (·, content)) ∧
        (content.reverse.find? fun t => !t.isWhitespace) =
          (spot s.place.offset s.tokens).reverse.find? fun t => !t.isWhitespace := by
  unfold item? Statement.item
  cases hk : s.kind with
  | comment => exact ⟨_, by rw [comment?_eq hk hf (hm hk)]; rfl, rfl⟩
  | atRule =>
    refine ⟨_, ?_, rfl⟩
    rw [atRule?_eq hk hf]
    cases s.atRule <;> rfl
  | rule =>
    refine ⟨_, ?_, rfl⟩
    rw [rule?_eq]
    cases s.rule <;> rfl
  | declaration =>
    obtain ⟨content, hread, hcontent⟩ := declaration?_eq hne
    refine ⟨content, ?_, hcontent⟩
    simp only [hread]
    cases s.declaration <;> rfl

end Reader

end OffsideCss
