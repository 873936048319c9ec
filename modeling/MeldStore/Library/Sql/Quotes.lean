import MeldStore.Library.Sql.Lexer

namespace Library.Sql

-- A text between quotes, with its quotes doubled, is one token.

def doubled (q : UInt8) (value : Bytes) : Bytes := value.flatMap fun c => if c = q then [q, q] else [c]

def quotedToken (q : UInt8) (value : Bytes) : Token := if q = 0x27 then .string value else .name value

section

variable {q : UInt8} {value rest : Bytes}

theorem quoted_doubled (hvalue : (0 : UInt8) ∉ value) (hrest : rest.head? ≠ some q) :
    quoted q (doubled q value ++ q :: rest) = some (value, rest) := by
  induction value with
  | nil => exact quoted_close hrest
  | cons c value ih =>
      have hread := ih fun hmem => hvalue (List.mem_cons_of_mem _ hmem)
      have hnul : c ≠ 0 := fun hsame => hvalue (hsame ▸ List.mem_cons_self)
      by_cases hc : c = q
      · have hsplit : doubled q (c :: value) = q :: q :: doubled q value := by
          rw [doubled, List.flatMap_cons, if_pos hc]
          rfl
        rw [hsplit, List.cons_append, List.cons_append, quoted_twice, hread, hc]
        rfl
      · have hsplit : doubled q (c :: value) = c :: doubled q value := by
          rw [doubled, List.flatMap_cons, if_neg hc]
          rfl
        rw [hsplit, List.cons_append, quoted_other hc hnul, hread]
        rfl

theorem isQuote_cases (hq : isQuote q = true) : q = ascii '"' ∨ q = 0x27 ∨ q = 0x60 := by
  simp only [isQuote, Bool.or_eq_true, decide_eq_true_eq, or_assoc] at hq
  exact hq

theorem scan_quote (hq : isQuote q = true) (z : Bytes) : scan q z = match quoted q z with
    | some (value, rest) => (some (quotedToken q value), rest)
    | none => (some (.illegal (before z (upToNul z))), upToNul z) := by
  rcases isQuote_cases hq with rfl | rfl | rfl <;> rfl

-- One token, and the text after it.
theorem next_doubled (hq : isQuote q = true) (hvalue : (0 : UInt8) ∉ value) (hrest : rest.head? ≠ some q) :
    next (q :: (doubled q value ++ q :: rest)) = some (some (quotedToken q value), rest) := by
  have hnul : q ≠ 0 := by rcases isQuote_cases hq with rfl | rfl | rfl <;> decide
  rw [next, if_neg hnul, scan_quote hq, quoted_doubled hvalue hrest]

end

-- Several tokens in a row.
inductive Reads : Bytes → List Token → Bytes → Prop
  | done (z : Bytes) : Reads z [] z
  | step {z mid rest : Bytes} {token : Option Token} {read : List Token} (h : next z = some (token, mid))
      (hrest : Reads mid read rest) : Reads z (token.toList ++ read) rest

namespace Reads

variable {z mid rest : Bytes} {read more : List Token}

theorem tokens (h : Reads z read rest) : Sql.tokens z = read ++ Sql.tokens rest := by
  induction h with
  | done => rfl
  | step hnext _ ih => rw [tokens_of_next hnext, ih, List.append_assoc]

theorem trans (h : Reads z read mid) (h' : Reads mid more rest) : Reads z (read ++ more) rest := by
  induction h with
  | done => exact h'
  | step hnext _ ih =>
      rw [List.append_assoc]
      exact .step hnext (ih h')

theorem one {token : Token} (h : next z = some (some token, rest)) : Reads z [token] rest :=
    .step h (.done rest)

theorem none (h : next z = some (Option.none, rest)) : Reads z [] rest := .step h (.done rest)

theorem suffix (h : Reads z read rest) : rest <:+ z := by
  induction h with
  | done => exact List.suffix_rfl
  | step hnext _ ih => exact ih.trans (next_suffix hnext).1

end Reads

end Library.Sql
