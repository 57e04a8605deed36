import LexChart.Proofs.Grammar.Interpretation
set_option autoImplicit false

/-!
# Symbols behind a word

A sequence of symbols exposes a symbol behind a word if it derives the word, followed by the symbol
and by anything else.  Such a derivation can be read from the outside to the inside: either the
symbol is in the sequence already and the symbols before it derive the word, or it is exposed by the
right side of a production of a rule in the sequence.  `Exposes` has one constructor for each.
-/

namespace LexChart.Grammar

/-- A symbol is exposed behind a word, by symbols that derive its beginning and then by one of the
sequence itself or by one inside of a rule. -/
inductive Exposes (g : Grammar) : List Symbol → List Nat → Symbol → Prop where
  | here {before : List Symbol} {word : List Nat} {s : Symbol} (after : List Symbol) :
      word ∈ g.generated.sequence before → Exposes g (before ++ s :: after) word s
  | inside {before : List Symbol} {p : Production} {word rest : List Nat} {s : Symbol}
      (after : List Symbol) : p ∈ g.productions → word ∈ g.generated.sequence before →
      Exposes g p.rhs rest s → Exposes g (before ++ .rule p.lhs :: after) (word ++ rest) s

/-- A symbol in the concatenation of two sequences is in one of them. -/
theorem append_eq_append_cons {α : Type} {as bs cs ds : List α} {x : α}
    (h : as ++ bs = cs ++ x :: ds) :
    (∃ more, as = cs ++ x :: more ∧ ds = more ++ bs) ∨
      ∃ more, cs = as ++ more ∧ bs = more ++ x :: ds := by
  rcases List.append_eq_append_iff.1 h with ⟨more, hcs, hbs⟩ | ⟨more, has, hds⟩
  · exact .inr ⟨more, hcs, hbs⟩
  · cases more with
    | nil =>
      rw [List.append_nil] at has
      exact .inr ⟨[], by rw [List.append_nil, has], hds.symm⟩
    | cons y more =>
      obtain ⟨rfl, rfl⟩ := List.cons.inj hds
      exact .inl ⟨more, has, rfl⟩

variable {g : Grammar}

/-- A rule may stand for the right side of its production in a sequence that derives a word. -/
theorem mem_sequence_of_production {p : Production} (hp : p ∈ g.productions)
    {before after : List Symbol} {word : List Nat}
    (h : word ∈ g.generated.sequence (before ++ p.rhs ++ after)) :
    word ∈ g.generated.sequence (before ++ .rule p.lhs :: after) :=
  (Step.produce p before after hp).sequence_le g.closed_generated h

/-- What is exposed after a step was exposed before it. -/
theorem Exposes.of_step {u v : List Symbol} {word : List Nat} {s : Symbol} (h : g.Step u v)
    (hv : g.Exposes v word s) : g.Exposes u word s := by
  cases h with
  | produce p before after hp =>
    generalize hform : before ++ p.rhs ++ after = v at hv
    cases hv with
    | @here begin _ _ tail hword =>
      rcases append_eq_append_cons hform with ⟨more, hin, -⟩ | ⟨more, rfl, rfl⟩
      · rcases append_eq_append_cons hin with ⟨rest, rfl, -⟩ | ⟨rest, rfl, hrhs⟩
        · rw [List.append_assoc, List.cons_append]
          exact .here _ hword
        · rw [Interpretation.sequence_append] at hword
          obtain ⟨x, hx, y, hy, rfl⟩ := Language.mem_mul.1 hword
          exact .inside after hp hx (hrhs ▸ .here more hy)
      · have hform' : before ++ .rule p.lhs :: (more ++ s :: tail) =
            (before ++ .rule p.lhs :: more) ++ s :: tail := by simp
        rw [hform']
        exact .here tail (mem_sequence_of_production hp hword)
    | @inside begin q x y _ tail hq hx hy =>
      rcases append_eq_append_cons hform with ⟨more, hin, -⟩ | ⟨more, rfl, rfl⟩
      · rcases append_eq_append_cons hin with ⟨rest, rfl, -⟩ | ⟨rest, rfl, hrhs⟩
        · rw [List.append_assoc, List.cons_append]
          exact .inside _ hq hx hy
        · rw [Interpretation.sequence_append] at hx
          obtain ⟨x₁, hx₁, x₂, hx₂, rfl⟩ := Language.mem_mul.1 hx
          rw [List.append_assoc]
          exact .inside after hp hx₁ (hrhs ▸ .inside more hq hx₂ hy)
      · have hform' : before ++ .rule p.lhs :: (more ++ .rule q.lhs :: tail) =
            (before ++ .rule p.lhs :: more) ++ .rule q.lhs :: tail := by simp
        rw [hform']
        exact .inside tail hq (mem_sequence_of_production hp hx) hy

theorem Exposes.derives {symbols : List Symbol} {word : List Nat} {s : Symbol}
    (h : g.Exposes symbols word s) : ∃ rest, g.Derives symbols (word.map .lex ++ s :: rest) := by
  induction h with
  | @here before word s after hword =>
    exact ⟨after, (derives_of_mem_sequence hword).append (.refl (s :: after))⟩
  | @inside before p word rest s after hp hword _ ih =>
    obtain ⟨tail, htail⟩ := ih
    refine ⟨tail ++ after, ?_⟩
    have hinside := (derives_of_production hp htail).append (.refl after)
    have h := (derives_of_mem_sequence hword).append hinside
    simpa using h

/-- A symbol is exposed exactly if a derivation leads to it behind the word. -/
theorem exposes_iff {symbols : List Symbol} {word : List Nat} {s : Symbol} :
    g.Exposes symbols word s ↔ ∃ rest, g.Derives symbols (word.map .lex ++ s :: rest) := by
  constructor
  · exact Exposes.derives
  · rintro ⟨rest, h⟩
    generalize hform : word.map Symbol.lex ++ s :: rest = form at h
    induction h with
    | refl =>
      subst hform
      exact .here rest (Interpretation.mem_sequence_tokens _ |>.2 rfl)
    | step first _ ih => exact (ih hform).of_step first

end LexChart.Grammar
