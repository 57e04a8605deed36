import LexChart.Proofs.Grammar.Exposed
import LexChart.Proofs.Recognizer.Walks
set_option autoImplicit false

/-!
# Active states

While tokens are read, a state of the network is active at a location, with the location where its
rule began.  `Active` gives the rules by which states become active: a state is entered silently,
over a call of a nullable rule, by prediction, behind a token, or behind a completed rule that began
earlier.

A state is active if and only if its rule can begin at the origin, behind the tokens before it, and
symbols that derive the tokens since then lead from the entry of the rule to the state.  From left
to right this is shown for one rule after the other.  From right to left the words that a rule can
read, wherever it is called, are an interpretation that is closed under the productions; a rule that
derives nothing is stepped over, and any other one is predicted and completed later.
-/

namespace LexChart

/-! ## Slices of tokens -/

section

variable {tokens : List Nat} {origin location : Nat}

/-- The tokens between two locations. -/
def slice (tokens : List Nat) (origin location : Nat) : List Nat :=
  (tokens.take location).drop origin

theorem slice_self (tokens : List Nat) (location : Nat) : slice tokens location location = [] := by
  simp [slice]

theorem take_append_slice (h : origin ≤ location) :
    tokens.take origin ++ slice tokens origin location = tokens.take location := by
  have htake : tokens.take origin = (tokens.take location).take origin := by
    rw [List.take_take, Nat.min_eq_left h]
  rw [htake, slice, List.take_append_drop]

theorem slice_append_slice {middle : Nat} (h : origin ≤ middle) (h' : middle ≤ location) :
    slice tokens origin middle ++ slice tokens middle location = slice tokens origin location := by
  have hall : tokens.take origin ++ (slice tokens origin middle ++ slice tokens middle location) =
      tokens.take origin ++ slice tokens origin location := by
    rw [← List.append_assoc, take_append_slice h, take_append_slice h',
      take_append_slice (by omega)]
  exact List.append_cancel_left hall

theorem slice_succ (h : origin ≤ location) {token : Nat} (htoken : tokens[location]? = some token) :
    slice tokens origin (location + 1) = slice tokens origin location ++ [token] := by
  have hone : slice tokens location (location + 1) = [token] := by
    obtain ⟨hlt, rfl⟩ := List.getElem?_eq_some_iff.1 htoken
    unfold slice
    rw [List.take_add_one, List.getElem?_eq_getElem hlt,
      List.drop_append_of_le_length (by simp; omega)]
    simp
  rw [← slice_append_slice h (Nat.le_succ location), hone]

end

/-- The rule can begin behind the tokens before a location. -/
def Grammar.Expects (g : Grammar) (tokens : List Nat) (location rule : Nat) : Prop :=
  ∃ rest, g.Derives [.rule g.start] ((tokens.take location).map .lex ++ .rule rule :: rest)

/-- A state is active at a location, and its rule began at an origin. -/
inductive Active (net : RuleNetwork) (g : Grammar) (tokens : List Nat) :
    Nat → Nat → Nat → Prop where
  | start {f : Fragment} : net.fragmentOf? net.start = some f → Active net g tokens 0 0 f.entry
  | silent {location origin p q : Nat} : Active net g tokens location origin p →
      net.moves p none q → Active net g tokens location origin q
  | skip {location origin p q rule : Nat} : Active net g tokens location origin p →
      net.moves p (some (.rule rule)) q → g.Generates rule [] →
      Active net g tokens location origin q
  | predict {location origin p q rule : Nat} {f : Fragment} :
      Active net g tokens location origin p →
      net.moves p (some (.rule rule)) q → net.fragmentOf? rule = some f →
      Active net g tokens location location f.entry
  | scan {location origin p q token : Nat} : Active net g tokens location origin p →
      net.moves p (some (.lex token)) q → tokens[location]? = some token →
      Active net g tokens (location + 1) origin q
  | complete {location origin before p q rule : Nat} {f : Fragment} :
      net.fragmentOf? rule = some f →
      Active net g tokens location origin f.exit → origin < location →
      Active net g tokens origin before p → net.moves p (some (.rule rule)) q →
      Active net g tokens location before q

/-- The rule of the state can begin at the origin, and symbols that derive the tokens since then
lead from its entry to the state. -/
structure Placed (net : RuleNetwork) (g : Grammar) (tokens : List Nat)
    (location origin state : Nat) :
    Prop where
  origin_le : origin ≤ location
  le_length : location ≤ tokens.length
  reached : ∃ rule f symbols, net.fragmentOf? rule = some f ∧ g.Expects tokens origin rule ∧
    Walk net.moves f.entry symbols state ∧
      slice tokens origin location ∈ g.generated.sequence symbols

variable {net : RuleNetwork} {g : Grammar} {tokens : List Nat}

/-! ## Active states are placed -/

/-- What a placed state reads can come next. -/
theorem Placed.exposes (represents : net.Represents g) {location origin p q : Nat} {s : Symbol}
    (h : Placed net g tokens location origin p) (hmove : net.moves p (some s) q) :
    ∃ rest, g.Derives [.rule g.start] ((tokens.take location).map .lex ++ s :: rest) := by
  obtain ⟨rule, f, symbols, hf, ⟨rest, hexpects⟩, hwalk, hword⟩ := h.reached
  obtain ⟨after, hafter⟩ := represents.exits rule f hf symbols p s q hwalk hmove
  have hproduction := (represents.walk_iff rule f hf _).1 (hwalk.append (.symbol hmove hafter))
  have hinside := (Grammar.derives_of_mem_sequence hword).append (.refl (s :: after))
  have hrule := Grammar.derives_of_production hproduction hinside
  have hcontext := (hrule.append (.refl rest)).context ((tokens.take origin).map .lex) []
  rw [List.append_nil, List.append_nil] at hcontext
  have hall := hexpects.trans hcontext
  refine ⟨after ++ rest, ?_⟩
  rw [← take_append_slice h.origin_le]
  simpa using hall

/-- One more symbol leads from a placed state to the next one. -/
theorem Placed.step {location origin next p q : Nat} {s : Symbol}
    (h : Placed net g tokens location origin p) (hmove : net.moves p (some s) q)
    (hle : location ≤ next) (hlength : next ≤ tokens.length)
    (hword : slice tokens location next ∈ g.generated.symbol s) :
    Placed net g tokens next origin q := by
  obtain ⟨rule, f, symbols, hf, hexpects, hwalk, hbefore⟩ := h.reached
  refine ⟨Nat.le_trans h.origin_le hle, hlength, rule, f, symbols ++ [s], hf, hexpects,
    hwalk.append (.symbol hmove (.nil q)), ?_⟩
  rw [← slice_append_slice h.origin_le hle, Interpretation.sequence_append,
    Interpretation.sequence_singleton]
  exact Language.append_mem_mul hbefore hword

theorem Active.placed (represents : net.Represents g) {location origin state : Nat}
    (h : Active net g tokens location origin state) :
    Placed net g tokens location origin state := by
  induction h with
  | @start f hf =>
    refine ⟨Nat.le_refl 0, Nat.zero_le _, net.start, f, [], hf, ?_, .nil _, ?_⟩
    · rw [represents.start_eq]
      exact ⟨[], .refl _⟩
    · simp [slice]
  | silent _ hmove ih =>
    obtain ⟨rule, f, symbols, hf, hexpects, hwalk, hword⟩ := ih.reached
    have hwalk' := hwalk.append (.silent hmove (.nil _))
    rw [List.append_nil] at hwalk'
    exact ⟨ih.origin_le, ih.le_length, rule, f, symbols, hf, hexpects, hwalk', hword⟩
  | skip _ hmove hnullable ih =>
    apply ih.step hmove (Nat.le_refl _) ih.le_length
    rw [slice_self]
    exact hnullable
  | predict _ hmove hf ih =>
    refine ⟨Nat.le_refl _, ih.le_length, _, _, [], hf, ih.exposes represents hmove, .nil _, ?_⟩
    rw [slice_self]
    exact Language.nil_mem_one
  | scan _ hmove htoken ih =>
    have hlt := (List.getElem?_eq_some_iff.1 htoken).1
    apply ih.step hmove (Nat.le_succ _) hlt
    rw [slice_succ (Nat.le_refl _) htoken, slice_self]
    rfl
  | complete hf _ _ _ hmove ihcallee ihcaller =>
    obtain ⟨rule, f', symbols, hf', -, hwalk, hword⟩ := ihcallee.reached
    obtain rfl := represents.rule_eq_of_walk hf' hf hwalk
    rw [hf] at hf'
    obtain rfl := Option.some.inj hf'
    apply ihcaller.step hmove ihcallee.origin_le ihcallee.le_length
    exact g.closed_generated ⟨rule, symbols⟩ ((represents.walk_iff rule _ hf symbols).1 hwalk) hword

/-! ## Placed states are active -/

/-- The words that lead over a call, wherever it is active. -/
def readable (net : RuleNetwork) (g : Grammar) (tokens : List Nat) : Interpretation := fun rule =>
  {word | g.Generates rule word ∧ ∀ location origin p q, Active net g tokens location origin p →
    net.moves p (some (.rule rule)) q → word <+: tokens.drop location →
    Active net g tokens (location + word.length) origin q}

/-- Readable words lead along a walk. -/
theorem Active.follow {location origin p q : Nat} {symbols : List Symbol} {word : List Nat}
    (h : Active net g tokens location origin p) (walk : Walk net.moves p symbols q)
    (hword : word ∈ (readable net g tokens).sequence symbols)
    (hbegins : word <+: tokens.drop location) :
    Active net g tokens (location + word.length) origin q := by
  induction walk generalizing location word with
  | nil p =>
    obtain rfl := (Language.mem_one _).1 hword
    exact h
  | silent hmove _ ih => exact ih (h.silent hmove) hword hbegins
  | @symbol p q r s symbols hmove _ ih =>
    rw [Interpretation.sequence_cons] at hword
    obtain ⟨first, hfirst, rest, hrest, rfl⟩ := Language.mem_mul.1 hword
    have hfirst_begins : first <+: tokens.drop location :=
      (List.prefix_append first rest).trans hbegins
    have hrest_begins : rest <+: tokens.drop (location + first.length) := by
      obtain ⟨tail, htail⟩ := hbegins
      refine ⟨tail, ?_⟩
      rw [← List.drop_drop, ← htail]
      simp
    have hnext : Active net g tokens (location + first.length) origin q := by
      cases s with
      | rule id => exact hfirst.2 location origin p q h hmove hfirst_begins
      | lex id =>
        obtain rfl : first = [id] := hfirst
        apply h.scan hmove
        obtain ⟨tail, htail⟩ := hfirst_begins
        have hget : (tokens.drop location)[0]? = some id := by
          rw [← htail]
          rfl
        simpa using hget
    have hend := ih hnext hrest hrest_begins
    rw [Nat.add_assoc] at hend
    rwa [List.length_append]

/-- A rule that is called and derives nothing is stepped over; any other one is predicted where it
is called, and completed where its word ends. -/
theorem closed_readable (represents : net.Represents g) :
    (readable net g tokens).Closed g.productions := by
  intro p hp word hword
  have hgenerates : g.Generates p.lhs word := g.closed_generated p hp
    (Interpretation.sequence_le (fun _ _ _ hw => hw.1) hword)
  refine ⟨hgenerates, fun location origin state next hactive hmove hbegins => ?_⟩
  cases hnil : word with
  | nil =>
    rw [hnil] at hgenerates
    exact hactive.skip hmove hgenerates
  | cons token rest =>
    rw [← hnil]
    obtain ⟨f, hf⟩ := represents.callee state p.lhs next hmove
    have hwalk := (represents.walk_iff p.lhs f hf p.rhs).2 hp
    have hexit := (hactive.predict hmove hf).follow hwalk hword hbegins
    refine .complete hf hexit ?_ hactive hmove
    rw [hnil]
    simp

/-- Words that symbols derive lead along a walk that reads the symbols. -/
theorem Active.read (represents : net.Represents g) {location origin p q : Nat}
    {symbols : List Symbol}
    {word : List Nat} (h : Active net g tokens location origin p)
    (walk : Walk net.moves p symbols q)
    (hword : word ∈ g.generated.sequence symbols) (hbegins : word <+: tokens.drop location) :
    Active net g tokens (location + word.length) origin q :=
  h.follow walk (Interpretation.sequence_le
    (fun rule _ => Grammar.generated_le (closed_readable represents) rule) hword) hbegins

/-- A symbol that is exposed along a walk can be read in an active state. -/
theorem Active.of_exposes (represents : net.Represents g) {location origin p q : Nat}
    {symbols : List Symbol} {word : List Nat} {s : Symbol} (exposes : g.Exposes symbols word s)
    (h : Active net g tokens location origin p) (walk : Walk net.moves p symbols q)
    (hbegins : word <+: tokens.drop location) :
    ∃ origin' r t, Active net g tokens (location + word.length) origin' r ∧
      net.moves r (some s) t := by
  induction exposes generalizing location origin p q with
  | here after hword =>
    obtain ⟨r, hbefore, hrest⟩ := walk.split
    obtain ⟨r', t, hsilent, hmove, -⟩ := Walk.cons_iff.1 hrest
    have hwalk := hbefore.append hsilent
    rw [List.append_nil] at hwalk
    exact ⟨origin, r', t, h.read represents hwalk hword hbegins, hmove⟩
  | @inside before production word rest s after hp hword _ ih =>
    obtain ⟨r, hbefore, hrest⟩ := walk.split
    obtain ⟨r', t, hsilent, hmove, -⟩ := Walk.cons_iff.1 hrest
    have hwalk := hbefore.append hsilent
    rw [List.append_nil] at hwalk
    have hcall := h.read represents hwalk hword ((List.prefix_append word rest).trans hbegins)
    obtain ⟨f, hf⟩ := represents.callee r' production.lhs t hmove
    have hrest_begins : rest <+: tokens.drop (location + word.length) := by
      obtain ⟨tail, htail⟩ := hbegins
      refine ⟨tail, ?_⟩
      rw [← List.drop_drop, ← htail]
      simp
    have hinside := ih (hcall.predict hmove hf)
      ((represents.walk_iff production.lhs f hf production.rhs).2 hp) hrest_begins
    rwa [List.length_append, ← Nat.add_assoc]

/-- A symbol can come next if and only if an active state reads it, or nothing is read yet and it is
the start rule. -/
theorem derives_next_iff (represents : net.Represents g) {location : Nat}
    (hlocation : location ≤ tokens.length) {s : Symbol} :
    (∃ rest, g.Derives [.rule g.start] ((tokens.take location).map .lex ++ s :: rest)) ↔
      (location = 0 ∧ s = .rule g.start) ∨ ∃ origin p q, Active net g tokens location origin p ∧
        net.moves p (some s) q := by
  constructor
  · intro h
    have hlength : (tokens.take location).length = location := by simp [hlocation]
    have hexposes := Grammar.exposes_iff.2 h
    generalize hform : [Symbol.rule g.start] = form at hexposes
    generalize htake : tokens.take location = word at *
    cases hexposes with
    | @here before _ _ after hword =>
      rcases List.singleton_eq_append_iff.1 hform with ⟨rfl, heq⟩ | ⟨-, heq⟩
      · obtain ⟨rfl, -⟩ := List.cons.inj heq
        obtain rfl := (Language.mem_one _).1 hword
        exact .inl ⟨hlength.symm, rfl⟩
      · cases heq
    | @inside before production first rest _ after hp hfirst hinside =>
      rcases List.singleton_eq_append_iff.1 hform with ⟨rfl, heq⟩ | ⟨-, heq⟩
      · obtain ⟨heq, -⟩ := List.cons.inj heq
        obtain hlhs := Symbol.rule.inj heq
        obtain rfl := (Language.mem_one _).1 hfirst
        obtain ⟨f, hf⟩ := represents.start_fragment
        have hstart : Active net g tokens 0 0 f.entry := .start hf
        rw [represents.start_eq, ← hlhs] at hf
        have hbegins : rest <+: tokens.drop 0 := by
          rw [List.drop_zero]
          rw [List.nil_append] at htake
          rw [← htake]
          exact List.take_prefix location tokens
        have hnext := hstart.of_exposes represents hinside
          ((represents.walk_iff production.lhs f hf production.rhs).2 hp) hbegins
        rw [Nat.zero_add] at hnext
        rw [List.nil_append] at hlength
        rw [hlength] at hnext
        exact .inr hnext
      · cases heq
  · rintro (⟨rfl, rfl⟩ | ⟨origin, p, q, hactive, hmove⟩)
    · exact ⟨[], .refl _⟩
    · exact (hactive.placed represents).exposes represents hmove

/-- A rule that can begin at a location is entered there. -/
theorem exists_active_entry (represents : net.Represents g) {location rule : Nat}
    (hlocation : location ≤ tokens.length) (h : g.Expects tokens location rule) :
    ∃ f, net.fragmentOf? rule = some f ∧ Active net g tokens location location f.entry := by
  rcases (derives_next_iff represents hlocation).1 h with
    ⟨rfl, heq⟩ | ⟨origin, p, q, hactive, hmove⟩
  · obtain rfl := Symbol.rule.inj heq
    obtain ⟨f, hf⟩ := represents.start_fragment
    refine ⟨f, ?_, .start hf⟩
    rwa [represents.start_eq] at hf
  · obtain ⟨f, hf⟩ := represents.callee p rule q hmove
    exact ⟨f, hf, hactive.predict hmove hf⟩

/-- The exit of a rule is active if and only if the rule can begin at the origin and derives the
tokens since then. -/
theorem active_exit_iff (represents : net.Represents g) {location origin rule : Nat}
    (hlocation : location ≤ tokens.length) (horigin : origin ≤ location) :
    (∃ f, net.fragmentOf? rule = some f ∧ Active net g tokens location origin f.exit) ↔
      g.Generates rule (slice tokens origin location) ∧ g.Expects tokens origin rule := by
  constructor
  · rintro ⟨f, hf, hactive⟩
    obtain ⟨rule', f', symbols, hf', hexpects, hwalk, hword⟩ := (hactive.placed represents).reached
    obtain rfl := represents.rule_eq_of_walk hf' hf hwalk
    rw [hf] at hf'
    obtain rfl := Option.some.inj hf'
    have hproduction := (represents.walk_iff rule' f hf symbols).1 hwalk
    exact ⟨g.closed_generated ⟨rule', symbols⟩ hproduction hword, hexpects⟩
  · rintro ⟨hgenerates, hexpects⟩
    obtain ⟨f, hf, hentry⟩ :=
      exists_active_entry represents (Nat.le_trans horigin hlocation) hexpects
    obtain ⟨p, hp, rfl, hword⟩ := Grammar.generates_iff.1 hgenerates
    have hbegins : slice tokens origin location <+: tokens.drop origin := by
      unfold slice
      rw [List.drop_take]
      exact List.take_prefix _ _
    have hexit := hentry.read represents ((represents.walk_iff p.lhs f hf p.rhs).2 hp) hword hbegins
    have hlength : origin + (slice tokens origin location).length = location := by
      simp [slice]
      omega
    rw [hlength] at hexit
    exact ⟨f, hf, hexit⟩

end LexChart
