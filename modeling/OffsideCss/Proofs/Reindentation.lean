import OffsideCss.Layout.Reindent
import OffsideCss.Proofs.Seams

/-! Indentation anew.  A text that is indented anew is scanned to the same tokens, where each run of
whitespace with a line break has given way to one line break and the indentation: what stands before
such a run ends at a line feed as well, and what stands behind it begins there as well.  So a text that
is indented anew once more stays as it is. -/

namespace OffsideCss

open Token (join scan scanFrom next)

namespace Text.LooksAhead

variable {stop : Text → Bool} (h : LooksAhead stop)
include h

/-- A test that looks at a character of a run does not see what is put behind the run, unless that
character is the last one. -/
theorem false_of_swap {c : Char} {run v w : Text} (hs : stop (c :: (run ++ v)) = false)
    (hnext : ∀ c, stop (c :: v) = false → stop (c :: w) = false) :
    stop (c :: (run ++ w)) = false := by
  cases run with
  | nil => exact hnext c hs
  | cons d run => rwa [List.cons_append, h.two, ← h.two (t := run ++ v)]

/-- A run ends before another text that ends it, if its last character begins nothing with that one. -/
theorem splitUnescaped_swap : ∀ {run v w : Text}, splitUnescaped stop (run ++ v) = (run, v) →
    v ≠ [] → w ≠ [] → stop w = true → (∀ c, stop (c :: v) = false → stop (c :: w) = false) →
    splitUnescaped stop (run ++ w) = (run, w)
  | [], v, w, _, _, hw, hstop, _ => by
    obtain ⟨c, w, rfl⟩ := List.exists_cons_of_ne_nil hw
    exact splitUnescaped_of_stop hstop
  | c :: run, v, w, hr, hv, hw, hstop, hnext => by
    have hs : stop (c :: (run ++ v)) = false := by
      refine Bool.eq_false_iff.2 fun hs => ?_
      rw [List.cons_append, splitUnescaped_of_stop hs] at hr
      simp at hr
    have hs' := h.false_of_swap hs hnext
    by_cases hc : c = '\\'
    · subst hc
      cases run with
      | cons d run =>
        rw [List.cons_append] at hs hs'
        rw [List.cons_append, List.cons_append, splitUnescaped_escape hs, Prod.mk.injEq,
          List.cons.injEq, List.cons.injEq] at hr
        rw [List.cons_append, List.cons_append, splitUnescaped_escape hs',
          splitUnescaped_swap (Prod.ext hr.1.2.2 hr.2) hv hw hstop hnext]
      | nil =>
        -- The backslash would take along the first character of what is behind the run.
        obtain ⟨d, v, rfl⟩ := List.exists_cons_of_ne_nil hv
        rw [List.cons_append, List.nil_append, splitUnescaped_escape hs] at hr
        simp at hr
    · rw [List.cons_append, splitUnescaped_cons hs (.inr hc), Prod.mk.injEq, List.cons.injEq] at hr
      rw [List.cons_append, splitUnescaped_cons hs' (.inr hc),
        splitUnescaped_swap (Prod.ext hr.1.2 hr.2) hv hw hstop hnext]

end Text.LooksAhead

namespace Token

/-! ### A line feed behind a token -/

section LineFeed

variable {depth : Nat} {c : Char} {run v : Text} {t : Token}

theorem atWordEnd_lineFeed (u : Text) (h : Text.atWordEnd depth (c :: v) = false) :
    Text.atWordEnd depth (c :: '\n' :: u) = false := by
  simp only [Text.atWordEnd, Bool.or_eq_false_iff] at h
  simp [Text.atWordEnd, Text.atBlockComment, Text.atLineComment, h.1.1]

theorem endsItself_of_quote {w : Text} (hc : isQuote c = true) (h : next depth c w = (t, v))
    (hv : v ≠ []) : t.kind.endsItself = true := by
  rw [next_quote hc] at h
  cases quoted c w with
  | unclosed hs =>
    rw [ofQuote_unclosed hs] at h
    exact absurd (Prod.mk.inj h).2.symm hv
  | closed hs =>
    rw [ofQuote_closed hs] at h
    rw [← (Prod.mk.inj h).1]
    rfl

theorem endsItself_of_blockComment {w : Text} (h : next depth '/' ('*' :: w) = (t, v))
    (hv : v ≠ []) : t.kind.endsItself = true := by
  rw [next_blockComment] at h
  cases commented w with
  | unclosed hs =>
    rw [ofBlockComment_unclosed hs] at h
    exact absurd (Prod.mk.inj h).2.symm hv
  | closed hs =>
    rw [ofBlockComment_closed hs] at h
    rw [← (Prod.mk.inj h).1]
    rfl

theorem endsItself_of_punctuation {kind : TokenKind} (h : TokenKind.ofPunctuation? c = some kind) :
    kind.endsItself = true := by
  cases TokenKind.punctuates h <;> rfl

/-- A token that ends by itself does so whatever is behind it. -/
theorem next_swap (h : next depth c (run ++ v) = (t, v)) (ht : t.text = c :: run)
    (hk : t.kind.endsItself = true) (u : Text) : next depth c (run ++ u) = (t, u) := by
  have hcut : next depth c run = (t, []) := next_cut h (by rw [ht, List.append_nil]) (by simp [hk])
  have hnext := next_append_right u (.inr (by rw [hcut]; exact hk))
  rwa [hcut] at hnext

/-- A token that is neither whitespace nor a comment up to the line break ends before a line feed. -/
theorem next_lineFeed_behind (h : next depth c (run ++ v) = (t, v)) (ht : t.text = c :: run)
    (hv : v ≠ []) (hsolid : t.isWhitespace = false) (hline : t.kind ≠ .lineComment) (u : Text) :
    next depth c (run ++ '\n' :: u) = (t, '\n' :: u) := by
  generalize hw : run ++ v = w at h
  cases begins depth c w with
  | punctuation hp =>
    subst hw
    refine next_swap h ht ?_ _
    rw [← (Prod.mk.inj ((next_punctuation hp).symm.trans h)).1]
    exact endsItself_of_punctuation hp
  | lineFeed =>
    rw [← (Prod.mk.inj (next_lineFeed.symm.trans h)).1] at hsolid
    cases hsolid
  | carriageReturn =>
    rw [← (Prod.mk.inj (next_carriageReturn.symm.trans h)).1] at hsolid
    cases hsolid
  | space hs =>
    rw [← (Prod.mk.inj ((next_space hs).symm.trans h)).1] at hsolid
    cases hsolid
  | quote hq =>
    subst hw
    exact next_swap h ht (endsItself_of_quote hq h hv) _
  | blockComment =>
    have hk := endsItself_of_blockComment h hv
    rw [← hw] at h
    exact next_swap h ht hk _
  | lineComment hd =>
    subst hd
    rw [← (Prod.mk.inj (next_lineComment.symm.trans h)).1] at hline
    exact absurd rfl hline
  | atWord =>
    rw [next_atWord] at h
    obtain ⟨rfl, -⟩ := Prod.mk.inj h
    obtain rfl : (w.splitBefore Text.atAtWordEnd).1 = run := (List.cons.inj ht).2
    rw [next_atWord, Text.splitBefore_run_append]
    · rfl
    · exact fun d hd _ => Text.splitBefore_run (p := endsAtWord) (fun _ _ hd => hd) hd
    · exact .inr rfl
  | word hend hat =>
    subst hw
    rw [next_word hend hat] at h
    obtain ⟨rfl, hleft⟩ := Prod.mk.inj h
    have hr : Text.splitUnescaped (Text.atWordEnd depth) (c :: run ++ v) = (c :: run, v) :=
      Prod.ext ht hleft
    have hnext : ∀ d, Text.atWordEnd depth (d :: v) = false →
        Text.atWordEnd depth (d :: '\n' :: u) = false := fun _ hd => atWordEnd_lineFeed u hd
    have hswap := (Text.LooksAhead.wordEnd depth).splitUnescaped_swap (w := '\n' :: u) hr hv
      (List.cons_ne_nil _ _) (by simp [Text.atWordEnd, endsWord]) hnext
    rw [next_word ((Text.LooksAhead.wordEnd depth).false_of_swap hend hnext) hat,
      ← List.cons_append, hswap]
    exact Prod.ext (congrArg (Token.mk .word) ht.symm) rfl

end LineFeed

/-! ### The tokens of a text that is indented anew -/

/-- A line break and an indentation. -/
def newLine (indent : Text) : List Token :=
  ⟨.lineBreak, ['\n']⟩ :: if indent = [] then [] else [⟨.space, indent⟩]

/-- Tokens indented anew: each run of whitespace with a line break gives way to a new line. -/
def reindented (indent : Text) : List Token → List Token
  | [] => []
  | t :: ts =>
    if ((t :: ts).takeWhile isWhitespace).any (·.kind = .lineBreak) then
      newLine indent ++ reindented indent (ts.dropWhile isWhitespace)
    else t :: reindented indent ts
termination_by ts => ts.length
decreasing_by
  · exact Nat.lt_succ_of_le (List.dropWhile_sublist isWhitespace).length_le
  · exact Nat.lt_succ_self _

section Tokens

variable {indent : Text} {depth : Nat} {t : Token} {ts : List Token}

theorem join_newLine (indent : Text) : join (newLine indent) = '\n' :: indent := by
  by_cases h : indent = [] <;> simp [newLine, h]

theorem reindented_nil (indent : Text) : reindented indent [] = [] := by
  rw [reindented]

theorem reindented_break (h : ((t :: ts).takeWhile isWhitespace).any (·.kind = .lineBreak) = true) :
    reindented indent (t :: ts) = newLine indent ++ reindented indent (ts.dropWhile isWhitespace) := by
  rw [reindented, if_pos h]

theorem reindented_keep (h : ((t :: ts).takeWhile isWhitespace).any (·.kind = .lineBreak) = false) :
    reindented indent (t :: ts) = t :: reindented indent ts := by
  rw [reindented, if_neg (by simp [h])]

theorem reindented_solid (h : t.isWhitespace = false) :
    reindented indent (t :: ts) = t :: reindented indent ts :=
  reindented_keep (by simp [h])

theorem reindentEach_eq (indent : Text) (ts : List Token) :
    reindentEach indent ts = join (reindented indent ts) := by
  fun_induction reindentEach indent ts with
  | case1 => rw [reindented_nil, join_nil]
  | case2 t ts h ih => rw [reindented_break h, join_append, join_newLine, ih]
  | case3 t ts h ih => rw [reindented_keep (Bool.eq_false_iff.2 h), join_cons, ih]

/-- What is no whitespace does not begin with a blank. -/
theorem isSpacing_of_next {c : Char} {rest : Text} (h : (next depth c rest).1.isWhitespace = false) :
    isSpacing c = false := by
  refine Bool.eq_false_iff.2 fun hs => Bool.eq_false_iff.1 h ?_
  by_cases hb : Text.atLineBreak (c :: rest) = true
  · rw [isWhitespace, next_of_atLineBreak hb]
    rfl
  · rw [next_space (by simp [Text.atSpacing, hs, hb])]
    rfl

theorem atSpacing_reindented (h : scanFrom depth (join ts) = ts)
    (hsolid : ∀ t ∈ ts.head?, t.isWhitespace = false) :
    Text.atSpacing (join (reindented indent ts)) = false := by
  cases ts with
  | nil =>
    rw [reindented_nil]
    rfl
  | cons t ts =>
    have ht := hsolid t rfl
    obtain ⟨⟨c, w, hw, hnext⟩, -⟩ := next_of_scanFrom h
    have hfirst : (next depth c w).1.isWhitespace = false := by rwa [hnext]
    have hc : isSpacing c = false := isSpacing_of_next hfirst
    obtain ⟨d, run, hd⟩ := List.exists_cons_of_ne_nil
      (text_ne_nil_of_mem_scanFrom (h ▸ List.mem_cons_self : t ∈ scanFrom depth _))
    rw [hd, List.cons_append, List.cons.injEq] at hw
    rw [reindented_solid ht, join_cons, hd, hw.1]
    simp [Text.atSpacing, hc]

theorem scanFrom_newLine {u : Text} (hindent : ∀ c ∈ indent, c = ' ') (hu : u.atSpacing = false) :
    scanFrom depth ('\n' :: (indent ++ u)) = newLine indent ++ scanFrom depth u := by
  rw [scanFrom_cons, next_lineFeed, newLine]
  by_cases hnil : indent = []
  · simp [hnil, TokenKind.nesting]
  · rw [scanFrom_spaces hnil (fun c hc => .inl (hindent c hc)) hu, if_neg hnil]
    rfl

/-- The first token of tokens that are indented anew is scanned as before. -/
theorem scanFrom_reindented_cons (h : scanFrom depth (join (t :: ts)) = t :: ts)
    (hline : t.kind ≠ .lineComment)
    (hkeep : ((t :: ts).takeWhile isWhitespace).any (·.kind = .lineBreak) = false) :
    scanFrom depth (t.text ++ join (reindented indent ts)) =
      t :: scanFrom (t.kind.nesting depth) (join (reindented indent ts)) := by
  obtain ⟨⟨c, w, hw, hnext⟩, hts⟩ := next_of_scanFrom h
  obtain ⟨d, run, hd⟩ := List.exists_cons_of_ne_nil
    (text_ne_nil_of_mem_scanFrom (h ▸ List.mem_cons_self : t ∈ scanFrom depth _))
  rw [hd, List.cons_append, List.cons.injEq] at hw
  obtain ⟨rfl, rfl⟩ := hw
  suffices hsuff : next depth d (run ++ join (reindented indent ts)) =
      (t, join (reindented indent ts)) by
    rw [hd, List.cons_append, scanFrom_cons, hsuff]
  cases ts with
  | nil =>
    rw [reindented_nil]
    exact hnext
  | cons u us =>
    have hne : u.text ≠ [] :=
      text_ne_nil_of_mem_scanFrom (hts ▸ List.mem_cons_self : u ∈ scanFrom _ _)
    by_cases hu : ((u :: us).takeWhile isWhitespace).any (·.kind = .lineBreak) = true
    · -- The whitespace that begins behind the first token is not part of a run with it.
      have hsolid : t.isWhitespace = false := by
        by_contra hwhite
        rw [List.takeWhile_cons, if_pos (by simpa using hwhite), List.any_cons, hu] at hkeep
        simp at hkeep
      rw [reindented_break hu, join_append, join_newLine]
      exact next_lineFeed_behind hnext hd (by simp [hne]) hsolid hline _
    · have happend : scanFrom depth (join [t, u] ++ join us) = [t, u] ++ us := by
        rw [← join_append]
        exact h
      have hcut : scanFrom depth (join [t, u]) = [t, u] := scanFrom_cut happend rfl
      obtain ⟨⟨e, w, hw, hfirst⟩, -⟩ := next_of_scanFrom hcut
      rw [hd, List.cons_append, List.cons.injEq] at hw
      obtain ⟨rfl, rfl⟩ := hw
      have hleft : (next depth d (run ++ join [u])).2 ≠ [] := by
        rw [hfirst]
        simpa using hne
      have hright := next_append_right (join (reindented indent us)) (.inl hleft)
      rw [hfirst] at hright
      rw [reindented_keep (Bool.eq_false_iff.2 hu)]
      simpa using hright

theorem scanFrom_reindented (h : scanFrom depth (join ts) = ts)
    (hline : ∀ t ∈ ts, t.kind ≠ .lineComment) (hindent : ∀ c ∈ indent, c = ' ') :
    scanFrom depth (join (reindented indent ts)) = reindented indent ts := by
  fun_induction reindented indent ts generalizing depth with
  | case1 => exact h
  | case2 t ts hany ih =>
    have ht : t.isWhitespace = true := by
      by_contra hsolid
      simp [hsolid] at hany
    have hwhite : White (t :: ts.takeWhile isWhitespace) :=
      List.forall_mem_cons.2 ⟨ht, fun u hu => List.mem_takeWhile_imp hu⟩
    have hsplit : t :: ts = (t :: ts.takeWhile isWhitespace) ++ ts.dropWhile isWhitespace := by
      rw [List.cons_append, List.takeWhile_append_dropWhile]
    have hrest : scanFrom depth (join (ts.dropWhile isWhitespace)) = ts.dropWhile isWhitespace := by
      have hsuffix := scanFrom_suffix (h.trans hsplit)
      rwa [hwhite.depthAfter_eq] at hsuffix
    have hspacing : Text.atSpacing (join (reindented indent (ts.dropWhile isWhitespace))) = false := by
      refine atSpacing_reindented hrest fun u hu => ?_
      have hhead := List.head?_dropWhile_not isWhitespace ts
      rw [hu] at hhead
      simpa using hhead
    rw [join_append, join_newLine, List.cons_append, scanFrom_newLine hindent hspacing,
      ih hrest fun u hu => hline u (.tail _ ((List.dropWhile_sublist _).mem hu))]
  | case3 t ts hany ih =>
    obtain ⟨hhead, htail⟩ := List.forall_mem_cons.1 hline
    rw [join_cons, scanFrom_reindented_cons h hhead (Bool.eq_false_iff.2 hany),
      ih (next_of_scanFrom h).2 htail]

end Tokens

/-! ### Runs of whitespace -/

/-- The longest runs of whitespace, and of other tokens, among tokens. -/
def runs (ts : List Token) : List (List Token) :=
  ts.splitBy fun t u => t.isWhitespace == u.isWhitespace

/-- A run of tokens indented anew: a new line where it has a line break, and else itself. -/
def reindentedRun (indent : Text) (run : List Token) : List Token :=
  if run.any (·.kind = .lineBreak) then newLine indent else run

section Runs

variable {indent : Text} {run rest ts : List Token}

theorem uniform_of_mem_runs (h : run ∈ runs ts) : Uniform run :=
  fun _ ht _ hu => isWhitespace_of_mem_splitBy h ht hu

theorem ne_nil_of_mem_runs (h : run ∈ runs ts) : run ≠ [] := List.ne_nil_of_mem_splitBy h

theorem newLine_ne_nil (indent : Text) : newLine indent ≠ [] := List.cons_ne_nil _ _

theorem white_newLine (indent : Text) : White (newLine indent) := by
  by_cases h : indent = [] <;>
    simp [White, newLine, h, isWhitespace, TokenKind.isWhitespace]

theorem Uniform.white (h : Uniform run) (hany : run.any (·.kind = .lineBreak) = true) : White run := by
  obtain ⟨t, ht, hk⟩ := List.any_eq_true.1 hany
  intro u hu
  rw [h u hu t ht, isWhitespace, of_decide_eq_true hk]
  rfl

theorem join_reindentedRun (indent : Text) (run : List Token) :
    join (reindentedRun indent run) = reindentRun indent run := by
  rw [reindentedRun, reindentRun]
  split
  · exact join_newLine indent
  · rfl

theorem reindentedRun_reindentedRun (indent : Text) (run : List Token) :
    reindentedRun indent (reindentedRun indent run) = reindentedRun indent run := by
  by_cases h : run.any (·.kind = .lineBreak) = true
  · have hnew : (newLine indent).any (·.kind = .lineBreak) = true := by simp [newLine]
    rw [reindentedRun, reindentedRun, if_pos h, if_pos hnew]
  · have hself : reindentedRun indent run = run := if_neg h
    rw [hself, hself]

/-- Whitespace stays whitespace, and other tokens stay as they are. -/
theorem isWhitespace_reindentedRun (h : Uniform run) {t u : Token}
    (ht : t ∈ reindentedRun indent run) (hu : u ∈ run) : t.isWhitespace = u.isWhitespace := by
  rw [reindentedRun] at ht
  split at ht
  · next hany => rw [white_newLine indent t ht, h.white hany u hu]
  · exact h t ht u hu

theorem filter_reindentedRun (h : Uniform run) :
    (reindentedRun indent run).filter (!·.isWhitespace) = run.filter (!·.isWhitespace) := by
  rw [reindentedRun]
  split
  · next hany =>
    rw [List.filter_eq_nil_iff.2, List.filter_eq_nil_iff.2]
    · intro t ht
      simp [h.white hany t ht]
    · intro t ht
      simp [white_newLine indent t ht]
  · rfl

/-- Whether of two runs the one is whitespace and the other one is not. -/
def Differ (run next : List Token) : Prop :=
  ∀ t ∈ run, ∀ u ∈ next, t.isWhitespace ≠ u.isWhitespace

theorem isChain_runs (ts : List Token) : (runs ts).IsChain Differ := by
  refine (List.isChain_getLast_head_splitBy _ ts).imp_of_mem_imp fun run next hrun hnext h => ?_
  obtain ⟨hne, hne', h⟩ := h
  intro t ht u hu
  rw [uniform_of_mem_runs hrun t ht _ (List.getLast_mem hne),
    uniform_of_mem_runs hnext u hu _ (List.head_mem hne')]
  simpa using h

theorem takeWhile_append_run (hne : run ≠ []) (h : Uniform run)
    (hrest : ∀ u ∈ rest.head?, Differ run [u]) :
    (run ++ rest).takeWhile isWhitespace = run.takeWhile isWhitespace := by
  obtain ⟨t, run, rfl⟩ := List.exists_cons_of_ne_nil hne
  by_cases ht : t.isWhitespace = true
  · have hwhite : White (t :: run) := fun u hu => (h u hu t List.mem_cons_self).trans ht
    have hnil : rest.takeWhile isWhitespace = [] := by
      cases rest with
      | nil => rfl
      | cons u rest =>
        have hu := hrest u rfl t List.mem_cons_self u List.mem_cons_self
        rw [ht] at hu
        simp [Bool.eq_false_iff.2 hu.symm]
    rw [List.takeWhile_append_of_pos hwhite, hnil, List.append_nil,
      List.takeWhile_eq_self_iff.2 hwhite]
  · simp [ht]

theorem reindented_keep_run (h : Uniform run) (hany : run.any (·.kind = .lineBreak) = false)
    (hrest : ∀ u ∈ rest.head?, Differ run [u]) :
    reindented indent (run ++ rest) = run ++ reindented indent rest := by
  induction run with
  | nil => rfl
  | cons t run ih =>
    have hkeep : ((t :: (run ++ rest)).takeWhile isWhitespace).any (·.kind = .lineBreak) = false := by
      rw [← List.cons_append, takeWhile_append_run (List.cons_ne_nil t run) h hrest,
        List.any_eq_false]
      exact fun u hu => List.any_eq_false.1 hany u ((List.takeWhile_sublist _).mem hu)
    rw [List.cons_append, reindented_keep hkeep, List.cons_append, ih]
    · exact fun u hu v hv => h u (.tail _ hu) v (.tail _ hv)
    · exact (Bool.or_eq_false_iff.1 hany).2
    · exact fun u hu v hv => hrest u hu v (.tail _ hv)

theorem reindented_break_run (h : White run) (hany : run.any (·.kind = .lineBreak) = true)
    (hrest : ∀ u ∈ rest.head?, Differ run [u]) :
    reindented indent (run ++ rest) = newLine indent ++ reindented indent rest := by
  cases run with
  | nil => cases hany
  | cons t run =>
    have htake : (t :: (run ++ rest)).takeWhile isWhitespace = t :: run := by
      rw [← List.cons_append, takeWhile_append_run (List.cons_ne_nil t run)
        (fun u hu v hv => (h u hu).trans (h v hv).symm) hrest, List.takeWhile_eq_self_iff.2 h]
    have hdrop : (run ++ rest).dropWhile isWhitespace = rest := by
      have happend := List.takeWhile_append_dropWhile (p := isWhitespace) (l := t :: (run ++ rest))
      rw [htake, List.dropWhile_cons_of_pos (h t List.mem_cons_self), ← List.cons_append] at happend
      exact List.append_cancel_left happend
    rw [List.cons_append, reindented_break (by rwa [htake]), hdrop]

/-- Tokens are indented anew run by run. -/
theorem reindented_flatten {rs : List (List Token)} (hne : ∀ run ∈ rs, run ≠ [] ∧ Uniform run)
    (hchain : rs.IsChain Differ) :
    reindented indent rs.flatten = rs.flatMap (reindentedRun indent) := by
  induction rs with
  | nil => exact reindented_nil indent
  | cons run rs ih =>
    obtain ⟨⟨-, huniform⟩, hrs⟩ := List.forall_mem_cons.1 hne
    have hrest : ∀ u ∈ rs.flatten.head?, Differ run [u] := by
      cases rs with
      | nil => simp
      | cons next rs =>
        obtain ⟨u, next, rfl⟩ := List.exists_cons_of_ne_nil (hrs next List.mem_cons_self).1
        intro v hv t ht w hw
        obtain rfl : u = v := by simpa using hv
        obtain rfl : w = u := by simpa using hw
        exact (List.isChain_cons_cons.1 hchain).1 t ht w List.mem_cons_self
    rw [List.flatten_cons, List.flatMap_cons, ← ih hrs hchain.tail, reindentedRun]
    split
    · next hany => exact reindented_break_run (huniform.white hany) hany hrest
    · next hany => exact reindented_keep_run huniform (Bool.eq_false_iff.2 hany) hrest

theorem reindented_eq (indent : Text) (ts : List Token) :
    reindented indent ts = (runs ts).flatMap (reindentedRun indent) := by
  have h : reindented indent (runs ts).flatten = (runs ts).flatMap (reindentedRun indent) :=
    reindented_flatten (fun run hrun => ⟨ne_nil_of_mem_runs hrun, uniform_of_mem_runs hrun⟩)
      (isChain_runs ts)
  rwa [runs, List.flatten_splitBy] at h

theorem runs_reindented (indent : Text) (ts : List Token) :
    runs (reindented indent ts) = (runs ts).map (reindentedRun indent) := by
  rw [reindented_eq, runs, List.flatMap_def]
  have hne : ∀ run ∈ runs ts, reindentedRun indent run ≠ [] := by
    intro run hrun
    rw [reindentedRun]
    split
    · exact newLine_ne_nil indent
    · exact ne_nil_of_mem_runs hrun
  have hsame : ∀ run ∈ runs ts, ∃ u ∈ run, ∀ t ∈ reindentedRun indent run,
      t.isWhitespace = u.isWhitespace := by
    intro run hrun
    obtain ⟨u, rest, rfl⟩ := List.exists_cons_of_ne_nil (ne_nil_of_mem_runs hrun)
    exact ⟨u, List.mem_cons_self, fun t ht =>
      isWhitespace_reindentedRun (uniform_of_mem_runs hrun) ht List.mem_cons_self⟩
  refine List.splitBy_flatten ?_ ?_ ?_
  · intro hnil
    obtain ⟨run, hrun, hnil⟩ := List.mem_map.1 hnil
    exact hne run hrun hnil
  · intro run' hrun'
    obtain ⟨run, hrun, rfl⟩ := List.mem_map.1 hrun'
    obtain ⟨u, -, hu⟩ := hsame run hrun
    refine List.Pairwise.isChain (List.pairwise_of_forall_mem_list fun t ht v hv => ?_)
    simp [hu t ht, hu v hv]
  · refine (List.isChain_map _).2 ((isChain_runs ts).imp_of_mem_imp fun run next hrun hnext h => ?_)
    obtain ⟨u, hu, hrun'⟩ := hsame run hrun
    obtain ⟨v, hv, hnext'⟩ := hsame next hnext
    refine ⟨hne run hrun, hne next hnext, ?_⟩
    rw [hrun' _ (List.getLast_mem _), hnext' _ (List.head_mem _)]
    simpa using h u hu v hv

theorem filter_reindented (indent : Text) (ts : List Token) :
    (reindented indent ts).filter (!·.isWhitespace) = ts.filter (!·.isWhitespace) := by
  have hflatten : ts.filter (!·.isWhitespace) =
      (runs ts).flatMap fun run => run.filter (!·.isWhitespace) := by
    rw [← List.filter_flatMap]
    exact congrArg _ (by simp [runs])
  rw [reindented_eq, List.filter_flatMap, hflatten]
  exact List.flatMap_congr fun run hrun => filter_reindentedRun (uniform_of_mem_runs hrun)

/-- Tokens that are indented anew once more stay as they are. -/
theorem reindented_reindented (indent : Text) (ts : List Token) :
    reindented indent (reindented indent ts) = reindented indent ts := by
  rw [reindented_eq indent (reindented indent ts), runs_reindented, reindented_eq, List.flatMap_map]
  exact List.flatMap_congr fun run _ => reindentedRun_reindentedRun indent run

end Runs

theorem reindented_of_unbroken {ts : List Token} (h : ∀ t ∈ ts, t.kind ≠ .lineBreak) (indent : Text) :
    reindented indent ts = ts := by
  induction ts with
  | nil => exact reindented_nil indent
  | cons t ts ih =>
    have hkeep : ((t :: ts).takeWhile isWhitespace).any (·.kind = .lineBreak) = false :=
      List.any_eq_false.2 fun u hu => by simpa using h u ((List.takeWhile_sublist _).mem hu)
    rw [reindented_keep hkeep, ih (List.forall_mem_cons.1 h).2]

theorem reindent_eq_join (indent : Text) (ts : List Token) :
    reindent indent ts = join (reindented indent ts) := by
  rw [reindented_eq, join, List.flatMap_assoc, reindent]
  exact List.flatMap_congr fun run _ => (join_reindentedRun indent run).symm

end Token

namespace Text

variable {t indent : Text}

theorem reindent_eq_join (t indent : Text) :
    t.reindent indent = join (Token.reindented indent (scan t)) := by
  by_cases h : '\n' ∈ t
  · rw [reindent, if_pos h, Token.reindent_eq_join]
  · have hunbroken : ∀ tok ∈ scan t, tok.kind ≠ .lineBreak := by
      intro tok htok hk
      have hspells := Token.spells_of_mem_scan htok
      rw [hk] at hspells
      have hmem : '\n' ∈ tok.text := by rcases hspells with htext | htext <;> simp [htext]
      rw [← Token.join_scan t] at h
      exact h (List.mem_flatMap.2 ⟨tok, htok, hmem⟩)
    rw [reindent, if_neg h, Token.reindented_of_unbroken hunbroken, Token.join_scan]

/-- Whether a text `u` is the text `t` with nothing but whitespace changed, and that run by run: a run
of whitespace with a line break becomes a line feed and `indent`, and any other run stays the same. -/
structure Reindented (indent t u : Text) : Prop where
  solid : (scan u).filter (!·.isWhitespace) = (scan t).filter (!·.isWhitespace)
  runs : Token.runs (scan u) = (Token.runs (scan t)).map (Token.reindentedRun indent)
  /-- It is written token by token, also where `t` has no line feed. -/
  each : u = Token.reindentEach indent (scan t)
  again : u.reindent indent = u

theorem scan_reindent (hline : ∀ tok ∈ scan t, tok.kind ≠ .lineComment)
    (hindent : ∀ c ∈ indent, c = ' ') :
    scan (t.reindent indent) = Token.reindented indent (scan t) := by
  rw [reindent_eq_join]
  exact Token.scanFrom_reindented (congrArg scan (Token.join_scan t)) hline hindent

/-- A text without comments up to a line break keeps its tokens when it is indented anew. -/
theorem reindented_reindent (hline : ∀ tok ∈ scan t, tok.kind ≠ .lineComment)
    (hindent : ∀ c ∈ indent, c = ' ') : Reindented indent t (t.reindent indent) where
  solid := by rw [scan_reindent hline hindent, Token.filter_reindented]
  runs := by rw [scan_reindent hline hindent, Token.runs_reindented]
  each := by rw [reindent_eq_join, Token.reindentEach_eq]
  again := by
    rw [reindent_eq_join, scan_reindent hline hindent, Token.reindented_reindented, reindent_eq_join]

/-- Line breaks in strings and comments stay, and so does an escaped carriage return before a line
feed. -/
theorem reindented_reindent_escaped_return :
    let t := ofString "a\\\r\r\n\r (b // c\n\td \"e\nf\") \n/*\n*/ /* g\n"
    let indent := ofString "  "
    (∀ tok ∈ scan t, tok.kind ≠ .lineComment) ∧ (∀ c ∈ indent, c = ' ') ∧
      Reindented indent t (t.reindent indent) ∧
      t.reindent indent = ofString "a\\\r\n  (b // c\n  d \"e\nf\")\n  /*\n*/ /* g\n" := by
  intro t indent
  have hline : ∀ tok ∈ scan t, tok.kind ≠ .lineComment := by decide +kernel
  have hindent : ∀ c ∈ indent, c = ' ' := by simp [indent, ofString]
  exact ⟨hline, hindent, reindented_reindent hline hindent, by decide +kernel⟩

end Text

end OffsideCss
