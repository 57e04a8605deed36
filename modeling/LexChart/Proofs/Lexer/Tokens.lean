import LexChart.Lexer.Munch
import LexChart.Proofs.Lexer.Captures
set_option autoImplicit false

/-!
# Lexemes are cut off by maximal munch

What a tokenizer finds in a text is what maximal munch says by the languages of the rules alone.
Maximal munch leaves no choice: at each place either no rule matches, or there is one longest match
and one list of candidates.

A scanner that reads ahead stops where it is stuck or where the text ends.  In both cases it has
captured all that rules match at the beginning of the whole text that is left, however far beyond
the longest match it has read, and what it has read goes back in front of the text.
-/

namespace LexChart

/-! ## Maximal munch leaves no choice -/

namespace LexRules

variable {rules : LexRules} {cursor : Cursor} {text w : List Char}
  {items : List (Except Diagnostic Lexeme)}

theorem matches_iff {r : Nat} : rules.Matches r w ↔ w ≠ [] ∧ Lexer.Matches rules r w := by
  refine and_congr_right fun _ => ?_
  constructor
  · rintro ⟨pattern, ignored, hrule, hw⟩
    exact ⟨(pattern, ignored), hrule, hw⟩
  · rintro ⟨⟨pattern, ignored⟩, hrule, hw⟩
    exact ⟨pattern, ignored, hrule, hw⟩

theorem IsLongest.ne_nil (h : rules.IsLongest text w) : w ≠ [] := by
  obtain ⟨-, ⟨_, hmatch⟩, -⟩ := h
  exact hmatch.1

theorem IsLongest.eq {v : List Char} (hv : rules.IsLongest text v) (hw : rules.IsLongest text w) :
    v = w := by
  obtain ⟨hv, ⟨r, hvr⟩, hvmax⟩ := hv
  obtain ⟨hw, ⟨r', hwr⟩, hwmax⟩ := hw
  have hle := hwmax v r hv hvr
  exact (List.prefix_of_prefix_length_le hv hw hle).eq_of_length_le (hvmax w r' hw hwr)

theorem NoMatch.not_isLongest (h : rules.NoMatch text) : ¬ rules.IsLongest text w := by
  rintro ⟨hw, ⟨r, hr⟩, -⟩
  exact h w r hw hr

theorem IsCandidates.eq {xs ys : List Nat} (hxs : rules.IsCandidates w xs)
    (hys : rules.IsCandidates w ys) : xs = ys := by
  have hperm : xs.Perm ys := by
    refine (List.perm_ext_iff_of_nodup (hxs.1.imp Nat.ne_of_lt) (hys.1.imp Nat.ne_of_lt)).2 ?_
    exact fun rule => (hxs.2 rule).trans (hys.2 rule).symm
  exact hperm.eq_of_pairwise (fun a b _ _ hab hba => by omega) hxs.1 hys.1

theorem munches_nil_iff : rules.Munches cursor [] items ↔ items = [] := by
  constructor
  · intro h
    generalize hnil : ([] : List Char) = text at h
    cases h with
    | done => rfl
    | bad => cases hnil
    | dropped hlongest => exact absurd (List.append_eq_nil_iff.1 hnil.symm).1 hlongest.ne_nil
    | lexeme hlongest => exact absurd (List.append_eq_nil_iff.1 hnil.symm).1 hlongest.ne_nil
  · rintro rfl
    exact .done cursor

/-- Where no rule matches, one character is bad. -/
theorem munches_bad_iff {c : Char} (h : rules.NoMatch (c :: text)) :
    rules.Munches cursor (c :: text) items ↔
      ∃ more, items = .error ⟨.badToken c, some ⟨cursor, cursor.advance c⟩⟩ :: more ∧
        rules.Munches (cursor.advance c) text more := by
  constructor
  · intro hmunches
    generalize hall : c :: text = all at h hmunches
    cases hmunches with
    | done => cases hall
    | bad _ hmore =>
      cases hall
      exact ⟨_, rfl, hmore⟩
    | dropped hlongest => exact absurd hlongest h.not_isLongest
    | lexeme hlongest => exact absurd hlongest h.not_isLongest
  · rintro ⟨more, rfl, hmore⟩
    exact .bad h hmore

/-- A longest match is cut off, and what comes first is told by its candidates. -/
theorem munches_longest_iff {candidates : List Nat} (h : rules.IsLongest (w ++ text) w)
    (hcandidates : rules.IsCandidates w candidates) :
    rules.Munches cursor (w ++ text) items ↔ ∃ more, rules.Munches (cursor.advanceAll w) text more ∧
      items = match candidates with
        | [] => more
        | rule :: others =>
          .ok ⟨rule, rule :: others, w, ⟨cursor, cursor.advanceAll w⟩⟩ :: more := by
  constructor
  · intro hmunches
    generalize hall : w ++ text = all at h hmunches
    cases hmunches with
    | done => exact absurd (List.append_eq_nil_iff.1 hall).1 h.ne_nil
    | bad hnone => exact absurd h hnone.not_isLongest
    | dropped hlongest hnone hmore =>
      obtain rfl := h.eq hlongest
      obtain rfl := List.append_cancel_left hall
      obtain rfl := hcandidates.eq hnone
      exact ⟨_, hmore, rfl⟩
    | lexeme hlongest hsome hmore =>
      obtain rfl := h.eq hlongest
      obtain rfl := List.append_cancel_left hall
      obtain rfl := hcandidates.eq hsome
      exact ⟨_, hmore, rfl⟩
  · rintro ⟨more, hmore, rfl⟩
    cases candidates with
    | nil => exact .dropped h hcandidates hmore
    | cons rule others => exact .lexeme h hcandidates hmore

end LexRules

/-! ## Reading ahead -/

namespace Lexer

variable {lexer : Lexer} {rules : LexRules}

/-- The lexer drops the matches of the rules that say so. -/
def Drops (lexer : Lexer) (rules : LexRules) : Prop :=
  ∀ rule, lexer.isIgnored rule = true ↔ ∃ pattern, rules[rule]? = some (pattern, true)

theorem drops_of_ofRules (h : ofRules rules = .ok lexer) : lexer.Drops rules := by
  obtain ⟨dfa, -, h⟩ := bind_eq_ok_iff.1 h
  cases h
  intro rule
  unfold isIgnored
  rw [List.getD_eq_getElem?_getD, List.getElem?_map]
  cases hrule : rules[rule]? with
  | none => simp
  | some entry =>
    obtain ⟨pattern, ignored⟩ := entry
    simp

end Lexer

namespace Scanner

variable {lexer : Lexer} {rules : LexRules}

/-- A scanner that is stuck stands where it stands after any longer text. -/
theorem After.extend {text : List Char} {s : Scanner} (h : After lexer rules text s)
    (hstate : s.state = none) (more : List Char) : After lexer rules (text ++ more) s := by
  cases h with
  | moving hmoving =>
    rw [hstate] at hmoving
    cases hmoving
  | stuck _ hpath hreversed hlists =>
    rw [List.append_assoc, List.cons_append]
    exact .stuck hstate hpath hreversed hlists

theorem After.state_ne_none {s : Scanner} (h : After lexer rules [] s) : s.state ≠ none := by
  generalize hnil : ([] : List Char) = text at h
  cases h with
  | moving hmoving =>
    rw [hmoving]
    exact Option.some_ne_none _
  | stuck => exact absurd hnil.symm (by simp)

/-- The longest match of what was read is that of the whole text if the scanner is stuck or nothing
is left. -/
theorem After.longestMatch {text more : List Char} {s : Scanner} (h : After lexer rules text s)
    (hend : s.state = none ∨ more = []) :
    match s.longestMatch with
    | none => rules.NoMatch (text ++ more)
    | some (w, found) => IsLongest rules text w found ∧ IsLongest rules (text ++ more) w found := by
  have hall : After lexer rules (text ++ more) s := by
    rcases hend with hstate | rfl
    · exact h.extend hstate more
    · rwa [List.append_nil]
  have hread := h.lists.longestMatch
  have hlongest := hall.lists.longestMatch
  cases hmatch : s.longestMatch with
  | none =>
    rw [hmatch] at hlongest
    intro w r hw hr
    rw [LexRules.matches_iff] at hr
    exact hlongest w r hr.1 hw hr.2
  | some =>
    rw [hmatch] at hread hlongest
    exact ⟨hread, hlongest⟩

section

variable {text w : List Char} {found : List Nat}

theorem IsLongest.matches_iff (h : IsLongest rules text w found) (r : Nat) :
    rules.Matches r w ↔ r ∈ found := by
  rw [LexRules.matches_iff, and_iff_right h.nonempty, h.mem_iff]

theorem IsLongest.isLongest (h : IsLongest rules text w found) : rules.IsLongest text w := by
  obtain ⟨r, hr⟩ := List.exists_mem_of_ne_nil found h.matched
  refine ⟨h.is_prefix, ⟨r, (h.matches_iff r).2 hr⟩, fun v r' hv hr' => ?_⟩
  rw [LexRules.matches_iff] at hr'
  exact h.length_le v r' hr'.1 hv hr'.2

/-- The rules of a longest match that are not dropped are its candidates. -/
theorem IsLongest.isCandidates (h : IsLongest rules text w found) (hdrops : lexer.Drops rules) :
    rules.IsCandidates w (found.filter fun rule => !lexer.isIgnored rule) := by
  refine ⟨h.ascending.filter _, fun rule => ?_⟩
  rw [List.mem_filter, h.matches_iff, Bool.not_eq_true', ← Bool.not_eq_true, hdrops, not_exists]

end

end Scanner

namespace Tokenizer

open Scanner

variable {lexer : Lexer} {rules : LexRules}

/-- Reading ahead ends where the scanner is stuck or the text ends. -/
theorem readAhead_ok (hruns : lexer.Runs rules) (t : Tokenizer) (s : Scanner)
    (reversed : List Char) (h : After lexer rules reversed.reverse s) :
    ∃ s' read ahead, t.readAhead lexer s reversed = .ok (s', read, ahead) ∧
      After lexer rules read s' ∧ (s'.state = none ∨ ahead.rest = []) := by
  fun_induction t.readAhead lexer s reversed with
  | case1 t s reversed hnone =>
    exact ⟨s, reversed.reverse, t, rfl, h, .inr (rest_of_nextChar_none hnone)⟩
  | case2 t s reversed c behind hsome ih =>
    obtain ⟨next, accepted, hscan, hnext, hrefused⟩ := h.scan hruns c
    rw [← List.reverse_cons] at hnext
    rw [hscan]
    cases accepted with
    | true => exact ih next hnext
    | false => exact ⟨next, _, behind, rfl, hnext, .inl (hrefused rfl).1⟩

theorem of_readAhead (hruns : lexer.Runs rules) {t ahead : Tokenizer} {s : Scanner}
    {read : List Char} (h : t.readAhead lexer .fresh [] = .ok (s, read, ahead)) :
    After lexer rules read s ∧ (s.state = none ∨ ahead.rest = []) ∧ read ++ ahead.rest = t.rest ∧
      ahead.cursor = t.cursor := by
  obtain ⟨hrest, hcursor⟩ := rest_of_readAhead h
  obtain ⟨_, _, _, hread, hafter, hend⟩ := readAhead_ok hruns t .fresh [] (after_fresh hruns)
  rw [h] at hread
  cases hread
  exact ⟨hafter, hend, hrest, hcursor⟩

theorem readAhead_ne_error (hruns : lexer.Runs rules) (t : Tokenizer) (fault : Fault) :
    t.readAhead lexer .fresh [] ≠ .error fault := by
  obtain ⟨_, _, _, hread, -⟩ := readAhead_ok hruns t .fresh [] (after_fresh hruns)
  rw [hread]
  exact fun h => nomatch h

/-! ## One item -/

/-- What is found next comes first by maximal munch, and the rest of it is left behind. -/
def Finds (rules : LexRules) (t : Tokenizer) :
    Option (Except Diagnostic Lexeme) → Tokenizer → Prop
  | none, behind => behind.rest = [] ∧ ∀ items, rules.Munches t.cursor t.rest items ↔ items = []
  | some item, behind => behind.rest.length < t.rest.length ∧
      ∀ items, rules.Munches t.cursor t.rest items ↔
        ∃ more, items = item :: more ∧ rules.Munches behind.cursor behind.rest more

/-- What is given back of a text behind a beginning of it, and the beginning. -/
theorem take_append_drop_of_prefix {first : Char} {others w : List Char} (hne : w ≠ [])
    (h : w <+: first :: others) : first :: others.take (w.length - 1) = w ∧
      w ++ others.drop (w.length - 1) = first :: others := by
  cases w with
  | nil => exact absurd rfl hne
  | cons c w =>
    obtain ⟨rest, hrest⟩ := h
    obtain ⟨rfl, rfl⟩ := List.cons.inj hrest
    simp

/-- Behind a longest match the tokenizer stands before the rest of the text. -/
theorem behind_longest (hruns : lexer.Runs rules) (hdrops : lexer.Drops rules)
    {t ahead behind : Tokenizer} {s : Scanner} {first : Char} {others w : List Char}
    {found : List Nat} (hread : t.readAhead lexer .fresh [] = .ok (s, first :: others, ahead))
    (hmatch : s.longestMatch = some (w, found))
    (hbehind : behind = (ahead.giveBack (others.drop (w.length - 1))).commit
      (first :: others.take (w.length - 1))) :
    t.rest = w ++ behind.rest ∧ behind.cursor = t.cursor.advanceAll w ∧
      rules.IsLongest (w ++ behind.rest) w ∧
      rules.IsCandidates w (found.filter fun rule => !lexer.isIgnored rule) := by
  obtain ⟨hafter, hend, hrest, hcursor⟩ := of_readAhead hruns hread
  have hlongest := hafter.longestMatch hend
  rw [hmatch] at hlongest
  obtain ⟨hwithin, hlongest⟩ := hlongest
  obtain ⟨htake, hdrop⟩ := take_append_drop_of_prefix hwithin.nonempty hwithin.is_prefix
  have hsplit : t.rest = w ++ behind.rest := by
    rw [← hrest, ← hdrop, hbehind, rest_commit, rest_giveBack, List.append_assoc]
  refine ⟨hsplit, ?_, ?_, hlongest.isCandidates hdrops⟩
  · rw [hbehind, cursor_commit, cursor_giveBack, htake, hcursor]
  · rw [← hsplit, ← hrest]
    exact hlongest.isLongest

/-- What is found behind a match that is dropped is found before it. -/
theorem Finds.dropped {t behind last : Tokenizer} {item : Option (Except Diagnostic Lexeme)}
    (h : Finds rules behind item last) (hle : behind.rest.length ≤ t.rest.length)
    (hmunches : ∀ items, rules.Munches t.cursor t.rest items ↔
      rules.Munches behind.cursor behind.rest items) : Finds rules t item last := by
  cases item with
  | none => exact ⟨h.1, fun items => (hmunches items).trans (h.2 items)⟩
  | some item =>
    exact ⟨Nat.lt_of_lt_of_le h.1 hle, fun items => (hmunches items).trans (h.2 items)⟩

/-- The tokenizer finds what comes first by maximal munch. -/
theorem next_ok (hruns : lexer.Runs rules) (hdrops : lexer.Drops rules) (t : Tokenizer) :
    ∃ found behind, t.next lexer = .ok (found, behind) ∧ Finds rules t found behind := by
  fun_induction t.next lexer with
  | case1 t fault hread => exact absurd hread (readAhead_ne_error hruns t fault)
  | case2 t s ahead hread =>
    obtain ⟨hafter, hend, hrest, -⟩ := of_readAhead hruns hread
    have hnil : ahead.rest = [] := hend.resolve_left hafter.state_ne_none
    refine ⟨none, ahead, rfl, hnil, fun items => ?_⟩
    rw [← hrest, hnil]
    exact LexRules.munches_nil_iff
  | case3 t s first others ahead hread hmatch behind =>
    obtain ⟨hafter, hend, hrest, hcursor⟩ := of_readAhead hruns hread
    have hnone := hafter.longestMatch hend
    rw [hmatch] at hnone
    have hbehind : behind.rest = others ++ ahead.rest := by simp [behind]
    have hstop : behind.cursor = t.cursor.advance first := by
      simp [behind, hcursor, Cursor.advanceAll]
    refine ⟨_, behind, rfl, ?_, fun items => ?_⟩
    · rw [← hrest, hbehind]
      simp
    · rw [← hrest, hbehind, hstop, hcursor]
      exact LexRules.munches_bad_iff hnone
  | case4 t s first others ahead hread w found hmatch length behind hnone ih =>
    -- A match of ignored rules only: what is found behind it comes first.
    have hbehind : behind = _ := rfl
    obtain ⟨hsplit, hcursor, hlongest, hcandidates⟩ :=
      behind_longest hruns hdrops hread hmatch hbehind
    rw [hnone] at hcandidates
    obtain ⟨item, last, hnext, hfinds⟩ := ih
    refine ⟨item, last, hnext, hfinds.dropped ?_ fun items => ?_⟩
    · simp [hsplit]
    · rw [hsplit, hcursor, LexRules.munches_longest_iff hlongest hcandidates]
      simp
  | case5 t s first others ahead hread w found hmatch length behind hsome =>
    have hbehind : behind = _ := rfl
    obtain ⟨hsplit, hcursor, hlongest, hcandidates⟩ :=
      behind_longest hruns hdrops hread hmatch hbehind
    obtain ⟨-, -, -, hstart⟩ := of_readAhead hruns hread
    generalize found.filter (fun rule => !lexer.isIgnored rule) = candidates at hsome hcandidates
    cases candidates with
    | nil => exact absurd rfl hsome
    | cons rule others =>
      refine ⟨_, behind, rfl, ?_, fun items => ?_⟩
      · have hpos := List.length_pos_of_ne_nil hlongest.ne_nil
        rw [hsplit, List.length_append]
        omega
      · rw [hsplit, hstart, hcursor, LexRules.munches_longest_iff hlongest hcandidates]
        simp only [and_comm]
        exact Iff.rfl

/-! ## All items -/

theorem next_of_rest_nil {t : Tokenizer} (h : t.rest = []) : t.next lexer = .ok (none, t) := by
  have hnone : t.nextChar = none := by
    cases hchar : t.nextChar with
    | none => rfl
    | some found =>
      rw [(rest_of_nextChar_some hchar).1] at h
      cases h
  have hread : t.readAhead lexer .fresh [] = .ok (.fresh, [], t) := by
    rw [readAhead]
    split
    · rfl
    · rename_i hsome
      rw [hnone] at hsome
      cases hsome
  rw [next]
  split
  · rename_i hfault
    rw [hread] at hfault
    cases hfault
  · rename_i hok
    rw [hread] at hok
    cases hok
    rfl
  · rename_i hok
    rw [hread] at hok
    cases hok

/-- At most `limit` items are all of them if the text is shorter than that. -/
theorem itemsWithin_ok (hruns : lexer.Runs rules) (hdrops : lexer.Drops rules) (limit : Nat)
    (t : Tokenizer) (hlimit : t.rest.length < limit) :
    ∃ found last, itemsWithin lexer limit t = .ok (found, last) ∧ last.rest = [] ∧
      ∀ items, rules.Munches t.cursor t.rest items ↔ items = found.map Prod.fst := by
  induction limit generalizing t with
  | zero => exact absurd hlimit (Nat.not_lt_zero _)
  | succ limit ih =>
    obtain ⟨item, behind, hnext, hfinds⟩ := next_ok hruns hdrops t
    unfold itemsWithin
    rw [hnext]
    cases item with
    | none => exact ⟨[], behind, rfl, hfinds⟩
    | some item =>
      obtain ⟨hshorter, hmunches⟩ := hfinds
      obtain ⟨found, last, hitems, hlast, hmore⟩ := ih behind (by omega)
      refine ⟨(item, behind) :: found, last, ?_, hlast, fun items => ?_⟩
      · show (itemsWithin lexer limit behind >>= fun rest => _) = _
        rw [hitems]
        rfl
      · rw [hmunches, List.map_cons]
        simp only [hmore, exists_eq_right]

/-- A lexer cuts every text into the items of maximal munch, and there are no others.  Behind them
nothing is found any more. -/
theorem items_exact (rules : LexRules) (lexer : Lexer) (h : Lexer.ofRules rules = .ok lexer)
    (text : List Char) :
    ∃ found last, (ofText text).items lexer = .ok (found, last) ∧
      last.next lexer = .ok (none, last) ∧
      ∀ items, rules.Munches .start text items ↔ items = found.map Prod.fst := by
  obtain ⟨found, last, hitems, hlast, hmunches⟩ :=
    itemsWithin_ok (Lexer.runs_of_ofRules h) (Lexer.drops_of_ofRules h) _ (ofText text)
      (Nat.lt_succ_self _)
  exact ⟨found, last, hitems, next_of_rest_nil hlast, hmunches⟩

end Tokenizer

/-! ## Rules of one character each -/

namespace LexRules

/-- A rule for each of some characters, with whether it is dropped. -/
def ofChars (cs : List (Char × Bool)) : LexRules :=
  cs.map fun (c, ignored) => (Expr.terminal (.char c), ignored)

variable {cs : List (Char × Bool)}

theorem getElem?_ofChars {r : Nat} {pattern : Pattern} {ignored : Bool} :
    (ofChars cs)[r]? = some (pattern, ignored) ↔
      ∃ c, cs[r]? = some (c, ignored) ∧ pattern = Expr.terminal (.char c) := by
  unfold ofChars
  rw [List.getElem?_map, Option.map_eq_some_iff]
  constructor
  · rintro ⟨⟨c, _⟩, hc, heq⟩
    cases heq
    exact ⟨c, hc, rfl⟩
  · rintro ⟨c, hc, rfl⟩
    exact ⟨(c, ignored), hc, rfl⟩

theorem matches_ofChars_iff {r : Nat} {w : List Char} :
    (ofChars cs).Matches r w ↔ ∃ c ignored, cs[r]? = some (c, ignored) ∧ w = [c] := by
  have hwords : ∀ c, w ∈ Expr.language CharClass.words (Expr.terminal (.char c)) ↔ w = [c] := by
    intro c
    rw [Expr.language_terminal]
    constructor
    · rintro ⟨d, hw, rfl⟩
      exact hw
    · exact fun hw => ⟨c, hw, rfl⟩
  unfold Matches
  simp only [getElem?_ofChars]
  constructor
  · rintro ⟨-, pattern, ignored, ⟨c, hc, rfl⟩, hw⟩
    exact ⟨c, ignored, hc, (hwords c).1 hw⟩
  · rintro ⟨c, ignored, hc, hw⟩
    exact ⟨hw ▸ List.cons_ne_nil c [], _, ignored, ⟨c, hc, rfl⟩, (hwords c).2 hw⟩

theorem isLongest_ofChars {c : Char} (h : ∃ ignored, (c, ignored) ∈ cs) (text : List Char) :
    (ofChars cs).IsLongest ([c] ++ text) [c] := by
  obtain ⟨ignored, hmem⟩ := h
  obtain ⟨r, hr⟩ := List.mem_iff_getElem?.1 hmem
  refine ⟨List.prefix_append _ _, ⟨r, matches_ofChars_iff.2 ⟨c, ignored, hr, rfl⟩⟩, ?_⟩
  intro v r' _ hv
  obtain ⟨d, _, -, rfl⟩ := matches_ofChars_iff.1 hv
  exact Nat.le_refl 1

theorem noMatch_ofChars {c : Char} (h : ∀ ignored, (c, ignored) ∉ cs) (text : List Char) :
    (ofChars cs).NoMatch (c :: text) := by
  intro w r hw hr
  obtain ⟨d, ignored, hd, rfl⟩ := matches_ofChars_iff.1 hr
  obtain ⟨rfl, -⟩ := List.cons_prefix_cons.1 hw
  exact h ignored (List.mem_of_getElem? hd)

/-- The candidates are the rules of the character that are not dropped. -/
theorem isCandidates_ofChars (cs : List (Char × Bool)) (c : Char) :
    (ofChars cs).IsCandidates [c]
      ((List.range cs.length).filter fun r => cs[r]? = some (c, false)) := by
  refine ⟨List.pairwise_lt_range.filter _, fun r => ?_⟩
  rw [List.mem_filter, List.mem_range, decide_eq_true_eq, matches_ofChars_iff]
  constructor
  · rintro ⟨-, hr⟩
    refine ⟨⟨c, false, hr, rfl⟩, fun pattern hdropped => ?_⟩
    obtain ⟨d, hd, -⟩ := getElem?_ofChars.1 hdropped
    rw [hr] at hd
    cases hd
  · rintro ⟨⟨d, ignored, hd, heq⟩, hkept⟩
    cases heq
    cases ignored with
    | true => exact absurd (getElem?_ofChars.2 ⟨c, hd, rfl⟩) (hkept _)
    | false => exact ⟨(List.getElem?_eq_some_iff.1 hd).1, hd⟩

end LexRules

namespace Tokenizer

/-- A letter, and spaces that are dropped. -/
def spaced : LexRules := .ofChars [('a', false), (' ', true)]

/-- A letter, a space that is dropped and a bad character. -/
theorem items_exact_spaced : ∃ lexer found last, Lexer.ofRules spaced = .ok lexer ∧
    (ofText ['a', ' ', 'b']).items lexer = .ok (found, last) ∧ found.map Prod.fst =
      [.ok ⟨0, [0], ['a'], ⟨⟨1, 0⟩, ⟨1, 1⟩⟩⟩, .error ⟨.badToken 'b', some ⟨⟨1, 2⟩, ⟨1, 3⟩⟩⟩] := by
  have hsize : (Lexer.nfaOf spaced).size < sizeLimit := by decide
  obtain ⟨lexer, hlexer, -⟩ := Lexer.ofRules_ok hsize
  obtain ⟨found, last, hitems, -, hmunches⟩ := items_exact spaced lexer hlexer ['a', ' ', 'b']
  refine ⟨lexer, found, last, hlexer, hitems, ((hmunches _).1 ?_).symm⟩
  have hletter := LexRules.isCandidates_ofChars [('a', false), (' ', true)] 'a'
  have hspace := LexRules.isCandidates_ofChars [('a', false), (' ', true)] ' '
  have hbad : spaced.NoMatch ['b'] := LexRules.noMatch_ofChars (by decide) []
  exact .lexeme (w := ['a']) (LexRules.isLongest_ofChars ⟨false, by decide⟩ _) hletter
    (.dropped (w := [' ']) (LexRules.isLongest_ofChars ⟨true, by decide⟩ _) hspace
      (.bad hbad (.done _)))

end Tokenizer

end LexChart
