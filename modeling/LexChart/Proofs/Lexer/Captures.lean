import LexChart.Proofs.Lexer.Rules
set_option autoImplicit false

/-!
# A scanner captures every match

After a text the scanner either stands in the state of the closure that the text leads to, or it is
stuck behind a character that nothing leads on with.  In both cases its captures are the nonempty
prefixes of the text that some rule matches, shorter ones first and those of one length by rule.
-/

namespace LexChart

namespace Lexer

/-- The rule matches the word: it is a word of its pattern, whose classes stand for characters by
their notation. -/
def Matches (rules : List (Pattern × Bool)) (r : Nat) (w : List Char) : Prop :=
  ∃ rule, rules[r]? = some rule ∧ w ∈ Expr.language CharClass.words rule.1

/-- The automaton behind the lexer of some rules. -/
def nfaOf (rules : List (Pattern × Bool)) : Nfa Interval := nfa (rules.map Prod.fst)

theorem matches_iff_path {rules : List (Pattern × Bool)} {r : Nat} {w : List Char} :
    Matches rules r w ↔
      ∃ q, (nfaOf rules).Path Interval.reads 0 w q ∧ (nfaOf rules).IsFinal q r := by
  have hlanguage : CharClass.language = CharClass.words := funext CharClass.language_eq_words
  unfold nfaOf
  rw [(branches_nfa (rules.map Prod.fst)).matches_iff, List.getElem?_map]
  unfold Matches Pattern.language
  rw [← hlanguage]
  constructor
  · rintro ⟨rule, hrule, hw⟩
    exact ⟨rule.1, by rw [hrule]; rfl, hw⟩
  · rintro ⟨p, hp, hw⟩
    obtain ⟨rule, hrule, rfl⟩ := Option.map_eq_some_iff.1 hp
    exact ⟨rule, hrule, hw⟩

/-- A lexer runs the deterministic automaton of its rules. -/
structure Runs (lexer : Lexer) (rules : List (Pattern × Bool)) : Prop where
  determines : Dfa.Determines Interval.reads (nfaOf rules) 0 lexer.dfa
  tables_eq : lexer.tables = .ofDfa lexer.dfa

/-- There is a lexer for all rules whose automaton fits in memory. -/
theorem ofRules_ok {rules : List (Pattern × Bool)} (h : (nfaOf rules).size < sizeLimit) :
    ∃ lexer, ofRules rules = .ok lexer ∧ lexer.Runs rules := by
  have hbranches := branches_nfa (rules.map Prod.fst)
  obtain ⟨dfa, hdfa, hdetermines⟩ :=
    Dfa.build_ok Interval.cuts h hbranches.targets hbranches.size_pos
  exact ⟨_, bind_eq_ok_iff.2 ⟨dfa, hdfa, rfl⟩, hdetermines, rfl⟩

theorem lt_sizeLimit_of_ofRules {rules : List (Pattern × Bool)} {lexer : Lexer}
    (h : ofRules rules = .ok lexer) : (nfaOf rules).size < sizeLimit := by
  obtain ⟨dfa, hdfa, -⟩ := bind_eq_ok_iff.1 h
  exact Dfa.lt_sizeLimit_of_build hdfa

theorem runs_of_ofRules {rules : List (Pattern × Bool)} {lexer : Lexer}
    (h : ofRules rules = .ok lexer) : lexer.Runs rules := by
  obtain ⟨lexer', hlexer, hruns⟩ := ofRules_ok (lt_sizeLimit_of_ofRules h)
  rw [h] at hlexer
  cases hlexer
  exact hruns

end Lexer

namespace Scanner

open Lexer

/-- Feeds all characters of a text, one after the other. -/
def feed (lexer : Lexer) (s : Scanner) : List Char → Except Fault Scanner
  | [] => .ok s
  | c :: rest => do
    let (s, _) ← s.scan lexer c
    feed lexer s rest

/-- The captures as spellings with the rules that match them. -/
def pairs (s : Scanner) : List (List Char × Nat) := s.captures.map fun c => (c.spelling, c.rule)

/-- Shorter spellings come first, and those of one length by rule. -/
def Precedes (a b : List Char × Nat) : Prop :=
  a.1.length < b.1.length ∨ (a.1.length = b.1.length ∧ a.2 < b.2)

/-- The nonempty prefixes of a text that rules match, in their order. -/
structure Lists (rules : List (Pattern × Bool)) (text : List Char)
    (found : List (List Char × Nat)) : Prop where
  mem_iff : ∀ p r, (p, r) ∈ found ↔ p ≠ [] ∧ p <+: text ∧ Matches rules r p
  ordered : found.Pairwise Precedes

/-- Where a scanner is after a text: in the state of the closure that the text leads to, or stuck
behind a character that nothing leads on with. -/
inductive After (lexer : Lexer) (rules : List (Pattern × Bool)) : List Char → Scanner → Prop where
  | moving {text : List Char} {s : Scanner} {id : Nat} {d : DfaState Interval} :
      s.state = some id → lexer.dfa.state id = .ok d →
      (∀ q, q ∈ d.closure ↔ (nfaOf rules).Path Interval.reads 0 text q) →
      s.reversed = text.reverse → Lists rules text s.pairs → After lexer rules text s
  | stuck {text rest : List Char} {c : Char} {s : Scanner} : s.state = none →
      (∀ q, ¬ (nfaOf rules).Path Interval.reads 0 (text ++ [c]) q) →
      s.reversed = text.reverse → Lists rules text s.pairs → After lexer rules (text ++ c :: rest) s

variable {lexer : Lexer} {rules : List (Pattern × Bool)}

/-! ## One character -/

theorem captures_follow (s : Scanner) (t : DfaTransition Interval) (c : Char) :
    (s.follow t c).captures = s.captures ++ t.completions.map fun k => ⟨c :: s.reversed, k⟩ := by
  have hfold : ∀ (ks : List Completion) (found : List Capture),
      (ks.foldl (fun found k => ⟨c :: s.reversed, k⟩ :: found) found).reverse =
        found.reverse ++ ks.map fun k => ⟨c :: s.reversed, k⟩ := by
    intro ks found
    simp
  exact hfold t.completions s.found

/-- The pairs after a transition: those from before, and the whole text with the rules completed. -/
theorem pairs_follow {s : Scanner} {text : List Char} (h : s.reversed = text.reverse)
    (t : DfaTransition Interval) (c : Char) : (s.follow t c).pairs =
      s.pairs ++ (t.completions.map Completion.rule).map fun r => (text ++ [c], r) := by
  unfold pairs
  rw [captures_follow, List.map_append, List.map_map, List.map_map]
  congr 1
  refine List.map_congr_left fun k _ => ?_
  simp [Capture.spelling, Capture.rule, h]

theorem prefix_concat_iff {p text : List Char} {c : Char} :
    p <+: text ++ [c] ↔ p <+: text ∨ p = text ++ [c] := by
  rw [List.prefix_concat_iff]
  exact or_comm

/-- The matches of a longer text: those of the shorter one, and the whole text with its rules. -/
theorem Lists.concat {text : List Char} {found : List (List Char × Nat)}
    (h : Lists rules text found)
    {c : Char} {completed : List Nat}
    (hcompleted : ∀ r, r ∈ completed ↔ Matches rules r (text ++ [c]))
    (hascending : completed.Pairwise (· < ·)) :
    Lists rules (text ++ [c]) (found ++ completed.map fun r => (text ++ [c], r)) := by
  refine ⟨fun p r => ?_, ?_⟩
  · rw [List.mem_append, h.mem_iff, prefix_concat_iff]
    have hnew : (p, r) ∈ completed.map (fun r => (text ++ [c], r)) ↔
        p = text ++ [c] ∧ Matches rules r p := by
      rw [List.mem_map]
      constructor
      · rintro ⟨r', hr, heq⟩
        cases heq
        exact ⟨rfl, (hcompleted _).1 hr⟩
      · rintro ⟨rfl, hr⟩
        exact ⟨r, (hcompleted r).2 hr, rfl⟩
    rw [hnew]
    constructor
    · rintro (⟨hne, hp, hr⟩ | ⟨rfl, hr⟩)
      · exact ⟨hne, .inl hp, hr⟩
      · exact ⟨by simp, .inr rfl, hr⟩
    · rintro ⟨hne, hp | rfl, hr⟩
      · exact .inl ⟨hne, hp, hr⟩
      · exact .inr ⟨rfl, hr⟩
  · refine List.pairwise_append.2 ⟨h.ordered, ?_, ?_⟩
    · refine List.pairwise_map.2 (hascending.imp fun hlt => ?_)
      exact .inr ⟨rfl, hlt⟩
    · rintro ⟨p, r⟩ hp b hb
      obtain ⟨r', -, rfl⟩ := List.mem_map.1 hb
      have hle := ((h.mem_iff p r).1 hp).2.1.length_le
      refine .inl ?_
      simp only [List.length_append, List.length_singleton]
      omega

/-- No text through a character that nothing leads on with is matched. -/
theorem not_matches_of_stuck {text : List Char} {c : Char}
    (h : ∀ q, ¬ (nfaOf rules).Path Interval.reads 0 (text ++ [c]) q) (rest : List Char) (r : Nat) :
    ¬ Matches rules r (text ++ c :: rest) := by
  intro hmatch
  obtain ⟨q, path, -⟩ := matches_iff_path.1 hmatch
  rw [List.append_cons] at path
  obtain ⟨p, hp, -⟩ := Nfa.Path.split (text ++ [c]) path
  exact h p hp

/-- A scanner with no transition for a character is stuck. -/
theorem scan_of_step_none {s : Scanner} {id : Nat} {c : Char} (hstate : s.state = some id)
    (hstep : lexer.step id c = .ok none) :
    s.scan lexer c = .ok ({ s with state := none }, false) := by
  unfold Scanner.scan
  simp only [hstate, hstep]
  rfl

/-- A scanner with a transition for a character follows it. -/
theorem scan_of_step_some {s : Scanner} {id : Nat} {c : Char} {t : DfaTransition Interval}
    (hstate : s.state = some id) (hstep : lexer.step id c = .ok (some t)) :
    s.scan lexer c = .ok (s.follow t c, true) := by
  unfold Scanner.scan
  simp only [hstate, hstep]
  rfl

/-- One character: either there is a transition that reads it, or the scanner is stuck from then on
and keeps what it has. -/
theorem After.scan (hruns : lexer.Runs rules) {text : List Char} {s : Scanner}
    (h : After lexer rules text s) (c : Char) :
    ∃ next accepted, s.scan lexer c = .ok (next, accepted) ∧ After lexer rules (text ++ [c]) next ∧
      (accepted = false → next.state = none ∧ next.captures = s.captures ∧
        next.reversed = s.reversed) := by
  cases h with
  | @moving _ _ id d hstate hd hclosure hreversed hlists =>
    have hstep : lexer.step id c = .ok (d.transitions.find? fun t => c ∈ t.label) := by
      unfold Lexer.step
      rw [hruns.tables_eq, Dispatch.step_ofDfa hd]
    cases hfind : d.transitions.find? fun t => c ∈ t.label with
    | none =>
      rw [hfind] at hstep
      refine ⟨{ s with state := none }, false, scan_of_step_none hstate hstep, ?_, fun _ =>
        ⟨rfl, rfl, rfl⟩⟩
      refine .stuck rfl (fun q path => ?_) hreversed hlists
      obtain ⟨p, hp, hmove⟩ := Nfa.path_concat_iff.1 path
      obtain ⟨t, ht, hc⟩ := hruns.determines.total id d hd c p ((hclosure p).2 hp) q hmove
      have := List.find?_eq_none.1 hfind t ht
      exact this (decide_eq_true hc)
    | some t =>
      rw [hfind] at hstep
      have ht := List.mem_of_find?_eq_some hfind
      have hfound := List.find?_some hfind
      have hc : c ∈ t.label := of_decide_eq_true hfound
      obtain ⟨next, hnext, hcompletions, hmem⟩ := hruns.determines.step id d hd t ht
      have hpath : ∀ q, q ∈ next.closure ↔
          (nfaOf rules).Path Interval.reads 0 (text ++ [c]) q := by
        intro q
        rw [hmem c hc, Nfa.path_concat_iff]
        simp only [hclosure]
      obtain ⟨hrules, hascending⟩ := hruns.determines.accepts _ next hnext
      refine ⟨s.follow t c, true, scan_of_step_some hstate hstep, ?_, fun h => nomatch h⟩
      refine .moving rfl hnext hpath ?_ ?_
      · show c :: s.reversed = _
        rw [hreversed, List.reverse_append]
        rfl
      · rw [pairs_follow hreversed, hcompletions]
        refine hlists.concat (fun r => ?_) hascending
        rw [hrules, matches_iff_path]
        simp only [hpath]
  | @stuck read rest last _ hstate hpath hreversed hlists =>
    refine ⟨s, false, ?_, ?_, fun _ => ⟨hstate, rfl, rfl⟩⟩
    · unfold Scanner.scan
      rw [hstate]
    · rw [List.append_assoc]
      exact .stuck hstate hpath hreversed hlists

/-! ## Whole texts -/

theorem after_fresh (hruns : lexer.Runs rules) : After lexer rules [] .fresh := by
  obtain ⟨d, hd, hclosure⟩ := hruns.determines.first
  refine .moving rfl hd (fun q => (hclosure q).trans Nfa.path_nil_iff.symm) rfl
    ⟨fun p r => ?_, .nil⟩
  constructor
  · exact fun h => nomatch h
  · rintro ⟨hne, hp, -⟩
    exact absurd (List.prefix_nil.1 hp) hne

theorem After.feed (hruns : lexer.Runs rules) {text : List Char} {s : Scanner}
    (h : After lexer rules text s) (rest : List Char) :
    ∃ next, s.feed lexer rest = .ok next ∧ After lexer rules (text ++ rest) next := by
  induction rest generalizing text s with
  | nil => exact ⟨s, rfl, by rwa [List.append_nil]⟩
  | cons c rest ih =>
    obtain ⟨middle, accepted, hscan, hmiddle, -⟩ := h.scan hruns c
    obtain ⟨next, hfeed, hnext⟩ := ih hmiddle
    refine ⟨next, ?_, by rwa [List.append_assoc] at hnext⟩
    unfold Scanner.feed
    rw [hscan]
    exact hfeed

/-- A stuck scanner has captured all there is to capture. -/
theorem After.lists {text : List Char} {s : Scanner} (h : After lexer rules text s) :
    Lists rules text s.pairs := by
  cases h with
  | moving _ _ _ _ hlists => exact hlists
  | @stuck read rest c _ _ hpath _ hlists =>
    refine ⟨fun p r => ?_, hlists.ordered⟩
    rw [hlists.mem_iff]
    refine and_congr_right fun _ => ⟨fun ⟨hp, hr⟩ => ⟨hp.trans (List.prefix_append _ _), hr⟩, ?_⟩
    rintro ⟨hp, hr⟩
    refine ⟨?_, hr⟩
    have hread := List.prefix_append read (c :: rest)
    rcases List.prefix_or_prefix_of_prefix hp hread with h | ⟨v, rfl⟩
    · exact h
    · cases v with
      | nil => simp
      | cons d v =>
        obtain ⟨w, hw⟩ := hp
        rw [List.append_assoc] at hw
        obtain ⟨rfl, -⟩ := List.cons.inj (List.append_cancel_left hw)
        exact absurd hr (not_matches_of_stuck hpath v r)

/-- Nothing that goes on behind the text of a stuck scanner is matched. -/
theorem After.not_matches {text : List Char} {s : Scanner} {c : Char}
    (h : After lexer rules (text ++ [c]) s) (hstate : s.state = none) (more : List Char) (r : Nat) :
    ¬ Matches rules r (text ++ c :: more) := by
  generalize hall : text ++ [c] = all at h
  cases h with
  | moving hmoving => rw [hstate] at hmoving; cases hmoving
  | @stuck read rest last _ _ hpath _ _ =>
    have hword : text ++ c :: more = read ++ last :: (rest ++ more) := by
      rw [List.append_cons, hall, List.append_assoc, List.cons_append]
    rw [hword]
    exact not_matches_of_stuck hpath _ r

/-! ## The longest match -/

/-- The longest nonempty prefix of a text that some rule matches, and the rules that do. -/
structure IsLongest (rules : List (Pattern × Bool)) (text longest : List Char) (found : List Nat) :
    Prop where
  nonempty : longest ≠ []
  is_prefix : longest <+: text
  matched : found ≠ []
  mem_iff : ∀ r, r ∈ found ↔ Matches rules r longest
  ascending : found.Pairwise (· < ·)
  length_le : ∀ p r, p ≠ [] → p <+: text → Matches rules r p → p.length ≤ longest.length

/-- Of a list in descending order the greatest elements stand at its beginning. -/
theorem mem_takeWhile_of_descending {α : Type} {f : α → Nat} {xs : List α} {n : Nat}
    (h : xs.Pairwise fun a b => f b ≤ f a) (hle : ∀ x ∈ xs, f x ≤ n) {x : α} :
    x ∈ xs.takeWhile (fun a => f a = n) ↔ x ∈ xs ∧ f x = n := by
  induction xs with
  | nil => simp
  | cons first rest ih =>
    obtain ⟨hfirst, hrest⟩ := List.pairwise_cons.1 h
    by_cases heq : f first = n
    · rw [List.takeWhile_cons_of_pos (by simpa using heq), List.mem_cons,
        ih hrest fun y hy => hle y (List.mem_cons_of_mem first hy), List.mem_cons]
      constructor
      · rintro (rfl | ⟨hx, hxn⟩)
        · exact ⟨.inl rfl, heq⟩
        · exact ⟨.inr hx, hxn⟩
      · rintro ⟨rfl | hx, hxn⟩
        · exact .inl rfl
        · exact .inr ⟨hx, hxn⟩
    · rw [List.takeWhile_cons_of_neg (by simpa using heq)]
      refine iff_of_false (fun hx => nomatch hx) ?_
      rintro ⟨hx, hxn⟩
      have hlt := hle first List.mem_cons_self
      rcases List.mem_cons.1 hx with rfl | hx
      · exact heq hxn
      · have := hfirst x hx
        omega

theorem mem_pairs {s : Scanner} {p : List Char} {r : Nat} :
    (p, r) ∈ s.pairs ↔ ∃ k ∈ s.found, k.spelling = p ∧ k.rule = r := by
  unfold pairs captures
  rw [List.mem_map]
  simp only [List.mem_reverse, Prod.mk.injEq]

/-- Captures of one length of one text have one spelling. -/
theorem Capture.spelling_eq_of_prefix {text : List Char} {k k' : Capture}
    (hk : k.spelling <+: text) (hk' : k'.spelling <+: text)
    (h : k.reversed.length = k'.reversed.length) : k.spelling = k'.spelling := by
  have hlength : k.spelling.length = k'.spelling.length := by
    rw [Capture.spelling, Capture.spelling, List.length_reverse, List.length_reverse, h]
  exact (List.prefix_of_prefix_length_le hk hk' (Nat.le_of_eq hlength)).eq_of_length hlength

/-- The captures found last are the longest ones. -/
theorem Lists.descending {text : List Char} {s : Scanner} (h : Lists rules text s.pairs) :
    s.found.Pairwise fun a b => b.reversed.length ≤ a.reversed.length := by
  have hordered := h.ordered
  unfold pairs captures at hordered
  rw [List.pairwise_map, List.pairwise_reverse] at hordered
  refine hordered.imp fun {a b} hab => ?_
  simp only [Precedes, Capture.spelling, List.length_reverse] at hab
  omega

/-- The longest match is read off the captures made last. -/
theorem Lists.longestMatch {text : List Char} {s : Scanner} (h : Lists rules text s.pairs) :
    match s.longestMatch with
    | none => ∀ p r, p ≠ [] → p <+: text → ¬ Matches rules r p
    | some (longest, found) => IsLongest rules text longest found := by
  have hdescending := h.descending
  have hmem : ∀ p r, (∃ k ∈ s.found, k.spelling = p ∧ k.rule = r) ↔
      p ≠ [] ∧ p <+: text ∧ Matches rules r p := fun p r => mem_pairs.symm.trans (h.mem_iff p r)
  unfold Scanner.longestMatch
  generalize s.found = found at hdescending hmem
  cases found with
  | nil =>
    intro p r hne hp hr
    obtain ⟨k, hk, -⟩ := (hmem p r).2 ⟨hne, hp, hr⟩
    exact nomatch hk
  | cons last rest =>
    have hle : ∀ k ∈ last :: rest, k.reversed.length ≤ last.reversed.length := by
      intro k hk
      rcases List.mem_cons.1 hk with rfl | hk
      · exact Nat.le_refl _
      · exact (List.pairwise_cons.1 hdescending).1 k hk
    have htake := fun k => mem_takeWhile_of_descending hdescending hle (x := k)
    obtain ⟨hne, hprefix, hmatch⟩ := (hmem _ _).1 ⟨last, List.mem_cons_self, rfl, rfl⟩
    have hrules : ∀ r, r ∈ ascending (((last :: rest).takeWhile fun k =>
        k.reversed.length = last.reversed.length).map Capture.rule) ↔
          Matches rules r last.spelling := by
      intro r
      rw [mem_ascending, List.mem_map]
      constructor
      · rintro ⟨k, hk, rfl⟩
        obtain ⟨hk, hlength⟩ := (htake k).1 hk
        obtain ⟨-, hkp, hkm⟩ := (hmem _ _).1 ⟨k, hk, rfl, rfl⟩
        rwa [Capture.spelling_eq_of_prefix hkp hprefix hlength] at hkm
      · intro hr
        obtain ⟨k, hk, hspelling, hrule⟩ := (hmem _ r).2 ⟨hne, hprefix, hr⟩
        refine ⟨k, (htake k).2 ⟨hk, ?_⟩, hrule⟩
        have := congrArg List.length hspelling
        simpa [Capture.spelling] using this
    refine ⟨hne, hprefix, ?_, hrules, pairwise_ascending _, fun p r hp_ne hp hr => ?_⟩
    · have hlast := (hrules last.rule).2 hmatch
      exact List.ne_nil_of_mem hlast
    · obtain ⟨k, hk, rfl, -⟩ := (hmem p r).2 ⟨hp_ne, hp, hr⟩
      simpa [Capture.spelling] using hle k hk

/-! ## Exactness -/

/-- A scanner that is stuck refuses every character and stays as it is. -/
theorem scan_of_stuck {s : Scanner} (h : s.state = none) (c : Char) :
    s.scan lexer c = .ok (s, false) := by
  unfold Scanner.scan
  rw [h]

/-- There is a lexer for all rules whose automaton fits in memory.  Whatever text a fresh scanner of
it is fed, its captures are the nonempty prefixes that rules match, by length and then by rule; a
character that it refuses changes nothing, is followed by refusals only, and no match goes through
it; and the longest match is the longest of these prefixes with all rules that match it. -/
theorem captures_exact (rules : List (Pattern × Bool)) :
    ((∃ lexer, ofRules rules = .ok lexer) ↔ (nfaOf rules).size < sizeLimit) ∧
    ∀ lexer, ofRules rules = .ok lexer → ∀ text : List Char,
      ∃ s, Scanner.fresh.feed lexer text = .ok s ∧ Lists rules text s.pairs ∧
        (∀ c, ∃ next accepted, s.scan lexer c = .ok (next, accepted) ∧
          (accepted = false → next.captures = s.captures ∧ next.spelling = s.spelling ∧
            (∀ d, next.scan lexer d = .ok (next, false)) ∧
            ∀ rest r, ¬ Matches rules r (text ++ c :: rest))) ∧
        match s.longestMatch with
        | none => ∀ p r, p ≠ [] → p <+: text → ¬ Matches rules r p
        | some (longest, found) => IsLongest rules text longest found := by
  refine ⟨⟨fun ⟨_, h⟩ => lt_sizeLimit_of_ofRules h, fun h => ?_⟩, fun lexer hlexer text => ?_⟩
  · exact (ofRules_ok h).imp fun _ h => h.1
  have hruns := runs_of_ofRules hlexer
  obtain ⟨s, hfeed, hafter⟩ := (after_fresh hruns).feed hruns text
  refine ⟨s, hfeed, hafter.lists, fun c => ?_, hafter.lists.longestMatch⟩
  obtain ⟨next, accepted, hscan, hnext, hrefused⟩ := hafter.scan hruns c
  refine ⟨next, accepted, hscan, fun haccepted => ?_⟩
  obtain ⟨hstate, hcaptures, hreversed⟩ := hrefused haccepted
  refine ⟨hcaptures, congrArg List.reverse hreversed, scan_of_stuck hstate, fun rest r => ?_⟩
  exact hnext.not_matches hstate rest r

/-- A lexer of two rules captures the first letter under both of them. -/
theorem captures_exact_letters : ∃ lexer s,
    ofRules [(Expr.terminal (.char 'a'), false), (Expr.terminal .any, true)] = .ok lexer ∧
      Scanner.fresh.feed lexer ['a', 'b'] = .ok s ∧
      (['a'], 0) ∈ s.pairs ∧ (['a'], 1) ∈ s.pairs := by
  obtain ⟨hexists, hall⟩ :=
    captures_exact [(Expr.terminal (.char 'a'), false), (Expr.terminal .any, true)]
  obtain ⟨lexer, hlexer⟩ := hexists.2 (by decide)
  obtain ⟨s, hfeed, hlists, -⟩ := hall lexer hlexer ['a', 'b']
  refine ⟨lexer, s, hlexer, hfeed, (hlists.mem_iff _ _).2 ⟨by simp, ⟨['b'], rfl⟩, ?_⟩,
    (hlists.mem_iff _ _).2 ⟨by simp, ⟨['b'], rfl⟩, ?_⟩⟩
  · refine ⟨_, rfl, ?_⟩
    rw [Expr.language_terminal]
    exact ⟨'a', rfl, rfl⟩
  · refine ⟨_, rfl, ?_⟩
    rw [Expr.language_terminal]
    exact ⟨'a', rfl, trivial⟩

end Scanner

end LexChart
