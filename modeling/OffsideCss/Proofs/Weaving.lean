import OffsideCss.Proofs.Ink
import OffsideCss.Proofs.ListFacts

/-! Weaving.  The tokens of a text are those of its lines, with whitespace before each line and behind
the last one.  Where a statement goes on from line to line it holds this whitespace as one token; apart
from that, its tokens are tokens of the text in a row. -/

namespace OffsideCss

open Token (join scan)

/-- The tokens of a text that belong to a node: the whitespace before it, and its own. -/
structure Share where
  lead : List Token
  own : List Token

def Share.tokens (x : Share) : List Token := x.lead ++ x.own

namespace Token

theorem white_nil : White [] := by simp [White]

theorem White.append {ts us : List Token} (ht : White ts) (hu : White us) : White (ts ++ us) :=
  List.forall_mem_append.2 ⟨ht, hu⟩

theorem White.isWhite_join {ts : List Token} (h : White ts) (hs : ∀ t ∈ ts, t.kind.Spells t.text) :
    (join ts).IsWhite := by
  intro c hc
  obtain ⟨t, ht, hct⟩ := List.mem_flatMap.1 hc
  exact isWhite_of_isWhitespace (hs t ht) (h t ht) c hct

theorem White.bare_eq {ts : List Token} (h : White ts) : bare ts = ts := by
  apply List.filter_eq_self.2
  intro t ht
  have hw := h t ht
  rw [isWhitespace] at hw
  cases hk : t.kind <;> simp_all [TokenKind.isWhitespace, TokenKind.isComment]

/-- Whether `ts` are the tokens `us`, some of which stand for whitespace of more tokens or of none. -/
inductive Expands : List Token → List Token → Prop
  | nil : Expands [] []
  | token {t : Token} {us ts : List Token} : Expands us ts → Expands (t :: us) (t :: ts)
  | joint {ws us ts : List Token} :
      White ws → Expands us ts → Expands (⟨.space, join ws⟩ :: us) (ws ++ ts)

namespace Expands

variable {us vs ts : List Token}

theorem refl (ts : List Token) : Expands ts ts := by
  induction ts with
  | nil => exact .nil
  | cons t ts ih => exact .token ih

theorem append {ts' : List Token} (h : Expands us ts) (h' : Expands vs ts') :
    Expands (us ++ vs) (ts ++ ts') := by
  induction h with
  | nil => exact h'
  | token _ ih => exact .token ih
  | joint hws _ ih =>
    rw [List.append_assoc]
    exact .joint hws ih

/-- What stands for the one and for the other one of two lists of tokens. -/
theorem split (h : Expands (us ++ vs) ts) :
    ∃ ts₁ ts₂, ts = ts₁ ++ ts₂ ∧ Expands us ts₁ ∧ Expands vs ts₂ := by
  induction us generalizing ts with
  | nil => exact ⟨[], ts, rfl, .nil, h⟩
  | cons u us ih =>
    cases h with
    | token h =>
      obtain ⟨ts₁, ts₂, rfl, h₁, h₂⟩ := ih h
      exact ⟨u :: ts₁, ts₂, rfl, .token h₁, h₂⟩
    | @joint ws _ _ hws h =>
      obtain ⟨ts₁, ts₂, rfl, h₁, h₂⟩ := ih h
      exact ⟨ws ++ ts₁, ts₂, (List.append_assoc ..).symm, .joint hws h₁, h₂⟩

theorem join_eq (h : Expands us ts) : join ts = join us := by
  induction h with
  | nil => rfl
  | token _ ih => rw [join_cons, join_cons, ih]
  | joint _ _ ih => rw [join_append, join_cons, ih]

theorem join_bare (h : Expands us ts) : join (bare ts) = join (bare us) := by
  induction h with
  | nil => rfl
  | @token t _ _ _ ih =>
    rw [bare, bare, List.filter_cons, List.filter_cons, ← bare, ← bare]
    split
    · rw [join_cons, join_cons, ih]
    · exact ih
  | @joint ws us _ hws _ ih =>
    have hcons : bare (⟨.space, join ws⟩ :: us) = ⟨.space, join ws⟩ :: bare us := rfl
    rw [bare_append, join_append, hws.bare_eq, hcons, join_cons, ih]

/-- What is said of the kinds of tokens, and of whitespace, is said of what they stand for. -/
theorem forall_kind {p : TokenKind → Prop} (hp : ∀ k : TokenKind, k.isWhitespace = true → p k)
    (h : Expands us ts) (hus : ∀ u ∈ us, p u.kind) : ∀ t ∈ ts, p t.kind := by
  induction h with
  | nil => simp
  | token _ ih =>
    obtain ⟨ht, hus⟩ := List.forall_mem_cons.1 hus
    exact List.forall_mem_cons.2 ⟨ht, ih hus⟩
  | joint hws _ ih =>
    refine List.forall_mem_append.2 ⟨?_, ih (List.forall_mem_cons.1 hus).2⟩
    intro t ht
    exact hp t.kind (hws t ht)

theorem white (h : Expands us ts) (hus : White us) : White ts :=
  h.forall_kind (p := fun k => k.isWhitespace = true) (fun _ hk => hk) hus

/-- Only whitespace stands for other tokens. -/
theorem eq_of_not_white (h : Expands us ts) (hus : ∀ u ∈ us, u.isWhitespace = false) : ts = us := by
  induction h with
  | nil => rfl
  | token _ ih => rw [ih (List.forall_mem_cons.1 hus).2]
  | joint => exact Bool.noConfusion (hus _ List.mem_cons_self)

theorem of_cons {u : Token} (h : Expands (u :: us) ts) (hu : u.isWhitespace = false) :
    ∃ ts', ts = u :: ts' ∧ Expands us ts' := by
  cases h with
  | token h => exact ⟨_, rfl, h⟩
  | joint => exact Bool.noConfusion hu

end Expands

end Token

open Token (White Expands)

/-! ### Lines -/

namespace Line

/-- Whether tokens are those of some lines, with whitespace before each of them and behind the last
one. -/
inductive Woven : List Token → List Line → Text → Prop
  | after {ws : List Token} : White ws → Woven ws [] (join ws)
  | line {ws ts : List Token} {l : Line} {ls : List Line} {after : Text} : White ws →
      join ws = l.lead → Woven ts ls after → Woven (ws ++ (l.tokens ++ ts)) (l :: ls) after

theorem exists_splitIndent (row : List Token) : ∃ ws, row = ws ++ (splitIndent row).2 ∧ White ws ∧
    join ws = (splitIndent row).1 := by
  cases row with
  | nil => exact ⟨[], rfl, Token.white_nil, rfl⟩
  | cons t ts =>
    by_cases hk : t.kind = .space
    · refine ⟨[t], by simp [splitIndent, hk], ?_, by simp [splitIndent, hk]⟩
      simp [White, Token.isWhitespace, hk, TokenKind.isWhitespace]
    · exact ⟨[], by simp [splitIndent, hk], Token.white_nil, by simp [splitIndent, hk]⟩

theorem exists_splitBreak (ts : List Token) : ∃ ws, ts = (splitBreak ts).1 ++ ws ∧ White ws ∧
    join ws = (splitBreak ts).2 := by
  rcases List.eq_nil_or_concat ts with rfl | ⟨us, t, rfl⟩
  · exact ⟨[], rfl, Token.white_nil, rfl⟩
  · by_cases hk : t.kind = .lineBreak
    · refine ⟨[t], by simp [splitBreak, hk], ?_, by simp [splitBreak, hk]⟩
      simp [White, Token.isWhitespace, hk, TokenKind.isWhitespace]
    · exact ⟨[], by simp [splitBreak, hk], Token.white_nil, by simp [splitBreak, hk]⟩

/-- The tokens of rows are woven from those of the lines among them. -/
theorem woven_ofRows {place : Place} {ws : List Token} (hws : White ws) (rs : List (List Token)) :
    Woven (ws ++ rs.flatten) (ofRows place (join ws) rs).1 (ofRows place (join ws) rs).2 := by
  induction rs generalizing place ws with
  | nil =>
    rw [List.flatten_nil, List.append_nil]
    exact .after hws
  | cons row rest ih =>
    obtain ⟨is, hrow, his, hindent⟩ := exists_splitIndent row
    obtain ⟨bs, htokens, hbs, hbreak⟩ := exists_splitBreak (splitIndent row).2
    cases h : (splitBreak (splitIndent row).2).1 with
    | nil =>
      rw [h, List.nil_append] at htokens
      have hwhite : White row := by
        rw [hrow, htokens]
        exact his.append hbs
      rw [ofRows_blank h, ← Token.join_append, List.flatten_cons, ← List.append_assoc]
      exact ih (hws.append hwhite)
    | cons head tail =>
      have hflat : ws ++ (row :: rest).flatten =
          (ws ++ is) ++ ((head :: tail) ++ (bs ++ rest.flatten)) := by
        rw [List.flatten_cons, hrow, htokens, h]
        simp
      rw [ofRows_line h, hflat, ← hbreak]
      have hlead : join (ws ++ is) = lead ⟨join ws, (splitIndent row).1, place, head, tail⟩ := by
        rw [Token.join_append, hindent, lead]
      exact .line (hws.append his) hlead (ih hbs)

theorem woven_of_ofTokens {ts : List Token} {lines : List Line} {after : Text}
    (h : ofTokens ts = .ok (lines, after)) : Woven ts lines after := by
  have hwoven : Woven ([] ++ (rowsFrom 0 ts).flatten) (ofRows .first (join []) (rowsFrom 0 ts)).1
      (ofRows .first (join []) (rowsFrom 0 ts)).2 := woven_ofRows Token.white_nil _
  rw [flatten_rowsFrom, List.nil_append, Token.join_nil, (ofTokens_eq_ok.1 h).2.2] at hwoven
  exact hwoven

end Line

/-! ### Statements -/

namespace Statement

/-- Whether a share is that of a statement. -/
structure Takes (s : Statement) (x : Share) : Prop where
  lead : join x.lead = s.first.lead
  white : White x.lead
  own : Expands s.tokens x.own
  spells : ∀ t ∈ x.tokens, t.kind.Spells t.text

theorem exists_joints {ts : List Token} {more rest : List Line} {after : Text}
    (h : Line.Woven ts (more ++ rest) after) : ∃ own ts', ts = own ++ ts' ∧
      Expands (more.flatMap fun l => l.joint :: l.tokens) own ∧ Line.Woven ts' rest after := by
  induction more generalizing ts with
  | nil => exact ⟨[], ts, rfl, .nil, h⟩
  | cons l more ih =>
    cases h with
    | @line ws _ _ _ _ hws hlead h =>
      obtain ⟨own, ts', rfl, hown, hrest⟩ := ih h
      refine ⟨ws ++ (l.tokens ++ own), ts', by simp, ?_, hrest⟩
      rw [List.flatMap_cons, List.cons_append, Line.joint, ← hlead]
      exact .joint hws ((Expands.refl l.tokens).append hown)

/-- The tokens of the lines of statements are shared among the statements. -/
theorem exists_shares {ts : List Token} {ss : List Statement} {after : Text}
    (hs : ∀ t ∈ ts, t.kind.Spells t.text) (h : Line.Woven ts (ss.flatMap lines) after) :
    ∃ (shares : List Share) (rest : List Token), ts = shares.flatMap Share.tokens ++ rest ∧
      List.Forall₂ Takes ss shares ∧ White rest ∧ join rest = after := by
  induction ss generalizing ts with
  | nil =>
    cases h with
    | after hws => exact ⟨[], ts, rfl, .nil, hws, rfl⟩
  | cons s ss ih =>
    rw [List.flatMap_cons, lines, List.cons_append] at h
    cases h with
    | @line ws _ _ _ _ hws hlead h =>
      obtain ⟨joints, ts', rfl, hjoints, hwoven⟩ := exists_joints h
      rw [← List.append_assoc s.first.tokens, ← List.append_assoc] at hs ⊢
      obtain ⟨hfirst, hmore⟩ := List.forall_mem_append.1 hs
      obtain ⟨shares, rest, rfl, hshares, hwhite, hafter⟩ := ih hmore hwoven
      refine ⟨⟨ws, s.first.tokens ++ joints⟩ :: shares, rest, ?_, .cons ?_ hshares, hwhite, hafter⟩
      · rw [List.flatMap_cons, Share.tokens, ← List.append_assoc, ← List.append_assoc]
      · exact ⟨hlead, hws, (Expands.refl s.first.tokens).append hjoints, hfirst⟩

end Statement

end OffsideCss
