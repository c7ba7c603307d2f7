import IntLang.Proofs.Parser.Soundness
/-!
Whatever a reader has taken before a fault is the beginning of a tree. The tree is built from the
trees read so far and, for each part that is missing, the smallest one there is.
-/
namespace IntLang.Parser

open Token (Kind)

/-- A fault on the way from `s` to `r`: tokens whose kinds are a beginning have been read, and the
fault is at the next one, which is taken as well. -/
def Stops (s : Stream) (e : ParseError) (r : Stream) (beginning : List Kind → Prop) : Prop :=
  ∃ s₁ ks, Reads s s₁ ks ∧ e.position = s₁.head.position ∧ r = s₁.tail ∧ beginning ks

/-- All faults of the reader are behind such beginnings. -/
def Faults {α : Type} (p : Parser α) (beginning : List Kind → Prop) : Prop :=
  ∀ s e r, p s = .error e r → Stops s e r beginning

/-- Some canonical expression up to that level is written with those kinds and more. -/
def BeginsExpr (level : Nat) (ks : List Kind) : Prop :=
  ∃ (e : Expr) (rest : List Kind), e.Canonical ∧ e.level ≤ level ∧ e.kinds = ks ++ rest

def BeginsStmt (ks : List Kind) : Prop :=
  ∃ (a : Stmt) (rest : List Kind), a.Canonical ∧ a.kinds = ks ++ rest

def BeginsItem (ks : List Kind) : Prop :=
  ∃ (a : Stmt) (rest : List Kind), a.CanonicalItem ∧ a.kinds = ks ++ rest

def BeginsItems (ks : List Kind) : Prop :=
  ∃ (items : List Stmt) (rest : List Kind), (∀ a ∈ items, a.CanonicalItem) ∧
    items.flatMap Stmt.kinds = ks ++ rest

def BeginsProgram (ks : List Kind) : Prop :=
  ∃ (p : Program) (rest : List Kind), p.Canonical ∧ p.kinds ++ [.endOfFile] = ks ++ rest

section Stops

variable {s s₁ s' r : Stream} {e : ParseError} {ks : List Kind} {beginning more : List Kind → Prop}

theorem Stops.here (h : beginning []) (position : e.position = s.head.position) :
    Stops s e s.tail beginning := ⟨s, [], .nil s, position, rfl, h⟩

theorem Stops.imp (h : Stops s e r beginning) (imp : ∀ ks, beginning ks → more ks) :
    Stops s e r more := by
  obtain ⟨s₁, ks, read, position, rest, begins⟩ := h
  exact ⟨s₁, ks, read, position, rest, imp ks begins⟩

theorem Stops.behind (read : Reads s s₁ ks) (h : Stops s₁ e r beginning)
    (imp : ∀ ks', beginning ks' → more (ks ++ ks')) : Stops s e r more := by
  obtain ⟨s₂, ks', read', position, rest, begins⟩ := h
  exact ⟨s₂, ks ++ ks', read.trans read', position, rest, imp ks' begins⟩

theorem require_faults (k : Kind) (c : Construct) (h : beginning []) :
    Faults (require k c) beginning := by
  intro s e r failed
  unfold require at failed
  split at failed
  · cases failed
  · cases failed
    exact .here h rfl

theorem identifier_faults (c : Construct) (h : beginning []) :
    Faults (identifier c) beginning := by
  intro s e r failed
  unfold identifier at failed
  split at failed
  · cases failed
  · cases failed
    exact .here h rfl

theorem reject_faults {α : Type} (expected : Expectation) (h : beginning []) :
    Faults (reject expected : Parser α) beginning := by
  intro s e r failed
  cases failed
  exact .here h rfl

theorem accept_ne_error {k : Kind} : accept k s ≠ .error e r := by
  unfold accept
  split <;> exact nofun

end Stops

section Expr

namespace BeginsExpr

variable {level n : Nat} {ks : List Kind}

theorem nil : BeginsExpr level [] :=
  ⟨.literal .start 0, _, trivial, Nat.zero_le level, rfl⟩

theorem of_canonical {e : Expr} (canonical : e.Canonical) (tight : e.level ≤ level) :
    BeginsExpr level e.kinds := ⟨e, [], canonical, tight, (List.append_nil _).symm⟩

theorem mono (h : BeginsExpr level ks) (hle : level ≤ n) : BeginsExpr n ks := by
  obtain ⟨e, rest, canonical, tight, kinds⟩ := h
  exact ⟨e, rest, canonical, Nat.le_trans tight hle, kinds⟩

theorem paren (h : BeginsExpr n ks) : BeginsExpr level (.symbol .leftParen :: ks) := by
  obtain ⟨e, rest, canonical, -, kinds⟩ := h
  refine ⟨.paren .start e, rest ++ [.symbol .rightParen], canonical, Nat.zero_le level, ?_⟩
  rw [Expr.kinds, kinds, List.append_assoc, List.cons_append]

theorem unary (op : UnaryOp) (h : BeginsExpr 0 ks) :
    BeginsExpr level (.symbol op.symbol :: ks) := by
  obtain ⟨e, rest, canonical, tight, kinds⟩ := h
  refine ⟨.unary .start op e, rest, ⟨Nat.le_zero.mp tight, canonical⟩, Nat.zero_le level, ?_⟩
  rw [Expr.kinds, kinds, List.cons_append]

theorem binary {op : BinaryOp} {left : Expr} (canonical : left.Canonical)
    (tight : left.level ≤ op.looseness) (h : BeginsExpr n ks) (hn : n < op.looseness) :
    BeginsExpr op.looseness (left.kinds ++ .symbol op.symbol :: ks) := by
  obtain ⟨e, rest, canonicalRight, tightRight, kinds⟩ := h
  refine ⟨.binary .start op left e, rest, ?_, Nat.le_refl _, ?_⟩
  · exact ⟨⟨tight, canonical⟩, Nat.lt_of_le_of_lt tightRight hn, canonicalRight⟩
  · rw [Expr.kinds, kinds, List.append_assoc, List.cons_append]

theorem whenTrue {condition : Expr} (canonical : condition.Canonical)
    (tight : condition.level ≤ BinaryOp.loosest) (h : BeginsExpr n ks) :
    BeginsExpr (BinaryOp.loosest + 1) (condition.kinds ++ .symbol .question :: ks) := by
  obtain ⟨e, rest, canonicalTrue, -, kinds⟩ := h
  refine ⟨.conditional .start condition e (.literal .start 0), rest ++ [.symbol .colon, .literal 0],
    ⟨⟨tight, canonical⟩, canonicalTrue, Nat.zero_le _, trivial⟩, Nat.le_refl _, ?_⟩
  rw [Expr.kinds, kinds, List.append_assoc, List.append_assoc, List.cons_append]
  rfl

theorem whenFalse {condition first : Expr} (canonical : condition.Canonical)
    (tight : condition.level ≤ BinaryOp.loosest) (canonicalTrue : first.Canonical)
    (h : BeginsExpr (BinaryOp.loosest + 1) ks) :
    BeginsExpr (BinaryOp.loosest + 1)
      (condition.kinds ++ .symbol .question :: (first.kinds ++ .symbol .colon :: ks)) := by
  obtain ⟨e, rest, canonicalFalse, tightFalse, kinds⟩ := h
  refine ⟨.conditional .start condition first e, rest,
    ⟨⟨tight, canonical⟩, canonicalTrue, tightFalse, canonicalFalse⟩, Nat.le_refl _, ?_⟩
  simp only [Expr.kinds, kinds, List.append_assoc, List.cons_append]

theorem assign (target : String) (h : BeginsExpr n ks) :
    BeginsExpr (BinaryOp.loosest + 2) (.identifier target :: .symbol .assign :: ks) := by
  obtain ⟨e, rest, canonical, -, kinds⟩ := h
  refine ⟨.assign .start target e, rest, canonical, Nat.le_refl _, ?_⟩
  rw [Expr.kinds, kinds, List.cons_append, List.cons_append]

end BeginsExpr

variable {expression operand : Parser Expr} {level : Nat}

theorem primaryWith_faults (he : Gives expression level)
    (hf : Faults expression (BeginsExpr level)) :
    Faults (primaryWith expression) (BeginsExpr 0) := by
  intro s e r h
  unfold primaryWith at h
  obtain h | ⟨token, s₁, htake, h⟩ := bind_eq_error h
  · cases h
  obtain ⟨rfl, rfl⟩ := take_eq_ok htake
  cases hkind : s.head.kind with
  | literal value =>
      rw [hkind] at h
      cases hword : Word.ofInt? value with
      | none =>
          simp only [hword] at h
          cases h
          exact .here .nil rfl
      | some word =>
          simp only [hword] at h
          cases h
  | identifier name =>
      rw [hkind] at h
      cases h
  | symbol mark =>
      rw [hkind] at h
      cases mark with
      | leftParen =>
          have read := reads_head hkind Kind.noConfusion
          obtain h | ⟨inner, s₂, hinner, h⟩ := bind_eq_error h
          · exact .behind read (hf _ _ _ h) fun ks begins => begins.paren
          obtain h | ⟨close, s₃, hclose, h⟩ := bind_eq_error h
          · obtain ⟨readInner, canonical, tight⟩ := he _ _ _ hinner
            have begins := BeginsExpr.of_canonical canonical tight
            refine .behind (read.cons readInner) (require_faults _ _ rfl _ _ _ h) ?_
            rintro _ rfl
            rw [List.append_nil]
            exact begins.paren
          · cases h
      | _ =>
          cases h
          exact .here .nil rfl
  | _ =>
      rw [hkind] at h
      cases h
      exact .here .nil rfl

theorem unaryWith_faults (he : Gives expression level)
    (hf : Faults expression (BeginsExpr level)) (bound : Nat) :
    Faults (unaryWith expression bound) (BeginsExpr 0) := by
  induction bound with
  | zero => exact primaryWith_faults he hf
  | succ bound ih =>
      intro s e r h
      unfold unaryWith at h
      obtain h | ⟨k, s₁, hpeek, h⟩ := bind_eq_error h
      · cases h
      obtain ⟨rfl, rfl⟩ := peek_eq_ok hpeek
      cases hop : unaryOp? s₁.head.kind with
      | none =>
          simp only [hop] at h
          exact primaryWith_faults he hf _ _ _ h
      | some op =>
          simp only [hop] at h
          have read := reads_head (unaryOp?_eq_some.mp hop) Kind.noConfusion
          obtain h | ⟨token, s₂, htake, h⟩ := bind_eq_error h
          · cases h
          obtain ⟨rfl, rfl⟩ := take_eq_ok htake
          obtain h | ⟨inner, s₃, hinner, h⟩ := bind_eq_error h
          · exact .behind read (ih _ _ _ h) fun ks begins => begins.unary op
          · cases h

theorem chain_faults (ho : Gives operand level) (hf : Faults operand (BeginsExpr level))
    (bound : Nat) {left : Expr} (canonical : left.Canonical) (tight : left.level ≤ level + 1) :
    Faults (chain (level + 1) operand bound left)
      fun ks => BeginsExpr (level + 1) (left.kinds ++ ks) := by
  induction bound generalizing left with
  | zero =>
      intro s e r h
      cases h
  | succ bound ih =>
      intro s e r h
      unfold chain at h
      obtain h | ⟨k, s₁, hpeek, h⟩ := bind_eq_error h
      · cases h
      obtain ⟨rfl, rfl⟩ := peek_eq_ok hpeek
      cases hop : binaryOp? (level + 1) s₁.head.kind with
      | none =>
          simp only [hop] at h
          cases h
      | some op =>
          simp only [hop] at h
          obtain ⟨hkind, hlevel⟩ := binaryOp?_eq_some.mp hop
          have read := reads_head hkind Kind.noConfusion
          obtain h | ⟨token, s₂, htake, h⟩ := bind_eq_error h
          · cases h
          obtain ⟨rfl, rfl⟩ := take_eq_ok htake
          rw [← hlevel] at tight
          obtain h | ⟨right, s₃, hright, h⟩ := bind_eq_error h
          · refine .behind read (hf _ _ _ h) fun ks begins => ?_
            rw [← hlevel]
            exact begins.binary canonical tight (by omega)
          · obtain ⟨readRight, canonicalRight, tightRight⟩ := ho _ _ _ hright
            have joined : (Expr.binary left.position op left right).Canonical :=
              ⟨⟨tight, canonical⟩, by omega, canonicalRight⟩
            refine .behind (read.cons readRight) (ih joined (Nat.le_of_eq hlevel) _ _ _ h) ?_
            intro ks begins
            simpa only [Expr.kinds, List.append_assoc, List.cons_append] using begins

theorem binaryWith_faults {n : Nat} (he : Gives expression n)
    (hf : Faults expression (BeginsExpr n)) (bound level : Nat) :
    Faults (binaryWith expression bound level) (BeginsExpr level) := by
  induction level with
  | zero => exact unaryWith_faults he hf bound
  | succ level ih =>
      intro s e r h
      unfold binaryWith at h
      obtain h | ⟨left, s₁, hleft, h⟩ := bind_eq_error h
      · exact (ih _ _ _ h).imp fun ks begins => begins.mono (Nat.le_succ level)
      obtain ⟨readLeft, canonical, tight⟩ := binaryWith_gives he _ _ _ _ _ hleft
      exact .behind readLeft (chain_faults (binaryWith_gives he bound level) ih bound canonical
        (Nat.le_succ_of_le tight) _ _ _ h) fun ks begins => begins

theorem conditionalWith_faults (he : Gives expression level)
    (hf : Faults expression (BeginsExpr level)) (bound : Nat) :
    Faults (conditionalWith expression bound) (BeginsExpr (BinaryOp.loosest + 1)) := by
  have binary (bound : Nat) : Faults (binaryWith expression bound BinaryOp.loosest)
      (BeginsExpr (BinaryOp.loosest + 1)) := fun s e r h =>
    (binaryWith_faults he hf bound _ s e r h).imp fun ks begins => begins.mono (Nat.le_succ _)
  induction bound with
  | zero => exact binary 0
  | succ bound ih =>
      intro s e r h
      unfold conditionalWith at h
      obtain h | ⟨condition, s₁, hcondition, h⟩ := bind_eq_error h
      · exact binary _ _ _ _ h
      obtain ⟨readCondition, canonical, tight⟩ := binaryWith_gives he _ _ _ _ _ hcondition
      obtain h | ⟨chosen, s₂, haccept, hrest⟩ := bind_eq_error h
      · exact (accept_ne_error h).elim
      obtain ⟨rfl, -, readMark⟩ | ⟨rfl, rfl, -⟩ := accept_eq_ok Kind.noConfusion haccept
      · have readTest := readCondition.trans readMark
        obtain h | ⟨whenTrue, s₃, htrue, h⟩ := bind_eq_error hrest
        · refine .behind readTest (hf _ _ _ h) fun ks begins => ?_
          rw [List.append_assoc]
          exact begins.whenTrue canonical tight
        obtain ⟨readTrue, canonicalTrue, tightTrue⟩ := he _ _ _ htrue
        obtain h | ⟨colon, s₄, hcolon, h⟩ := bind_eq_error h
        · refine .behind (readTest.trans readTrue) (require_faults _ _ rfl _ _ _ h) ?_
          rintro _ rfl
          rw [List.append_nil, List.append_assoc]
          exact (BeginsExpr.of_canonical canonicalTrue tightTrue).whenTrue canonical tight
        have readColon := require_eq_ok Kind.noConfusion hcolon
        obtain h | ⟨whenFalse, s₅, hfalse, h⟩ := bind_eq_error h
        · refine .behind ((readTest.trans readTrue).trans readColon) (ih _ _ _ h) ?_
          intro ks begins
          simpa only [List.append_assoc, List.cons_append, List.nil_append] using
            begins.whenFalse canonical tight canonicalTrue
        · cases h
      · cases hrest

/-- The target of an assignment that is no variable is a whole expression, so the fault is at the
`=` behind it. -/
theorem expressionWithin_faults (bound : Nat) :
    Faults (expressionWithin bound) (BeginsExpr (BinaryOp.loosest + 2)) := by
  induction bound with
  | zero => exact reject_faults _ .nil
  | succ bound ih =>
      have he := expressionWithin_gives bound
      intro s e r h
      unfold expressionWithin at h
      obtain h | ⟨target, s₁, htarget, h⟩ := bind_eq_error h
      · exact (conditionalWith_faults he ih _ _ _ _ h).imp
          fun ks begins => begins.mono (Nat.le_succ _)
      obtain ⟨readTarget, canonical, tight⟩ := conditionalWith_gives he _ _ _ _ htarget
      have begins := BeginsExpr.of_canonical canonical (Nat.le_succ_of_le tight)
      obtain h | ⟨k, s₂, hpeek, h⟩ := bind_eq_error h
      · cases h
      obtain ⟨rfl, rfl⟩ := peek_eq_ok hpeek
      by_cases hkind : s₂.head.kind = .symbol .assign
      · rw [if_pos hkind] at h
        have readMark := reads_head hkind Kind.noConfusion
        obtain h | ⟨token, s₃, htake, h⟩ := bind_eq_error h
        · cases h
        obtain ⟨rfl, rfl⟩ := take_eq_ok htake
        cases target with
        | var position name =>
            obtain h | ⟨value, s₄, hvalue, h⟩ := bind_eq_error h
            · exact .behind (readTarget.trans readMark) (ih _ _ _ h)
                fun ks begins => begins.assign name
            · cases h
        | _ =>
            cases h
            exact ⟨s₂, _, readTarget, rfl, rfl, begins⟩
      · rw [if_neg hkind] at h
        cases h

end Expr

section Stmt

namespace BeginsStmt

variable {ks : List Kind}

theorem nil : BeginsStmt [] := ⟨.empty .start, _, trivial, rfl⟩

theorem item (h : BeginsStmt ks) : BeginsItem ks := by
  obtain ⟨a, rest, canonical, kinds⟩ := h
  exact ⟨a, rest, canonical.item, kinds⟩

theorem whenTrue {condition : Expr} (canonical : condition.Canonical) (h : BeginsStmt ks) :
    BeginsStmt (.keyword .cond :: .symbol .leftParen ::
      (condition.kinds ++ .symbol .rightParen :: ks)) := by
  obtain ⟨a, rest, canonicalTrue, kinds⟩ := h
  refine ⟨.ifThen .start condition a, rest, ⟨canonical, canonicalTrue⟩, ?_⟩
  simp only [Stmt.kinds, kinds, List.append_assoc, List.cons_append]

/-- The condition of an `if` whose first arm is missing. -/
theorem condition (h : BeginsExpr (BinaryOp.loosest + 2) ks) :
    BeginsStmt (.keyword .cond :: .symbol .leftParen :: ks) := by
  obtain ⟨e, rest, canonical, -, kinds⟩ := h
  refine ⟨.ifThen .start e (.empty .start), rest ++ [.symbol .rightParen, .symbol .semicolon],
    ⟨canonical, trivial⟩, ?_⟩
  simp only [Stmt.kinds, kinds, List.append_assoc, List.cons_append]

theorem whenFalse {condition : Expr} {first : Stmt} (canonical : condition.Canonical)
    (canonicalTrue : first.Canonical) (closed : first.isOpen = false) (h : BeginsStmt ks) :
    BeginsStmt (.keyword .cond :: .symbol .leftParen :: (condition.kinds ++ .symbol .rightParen ::
      (first.kinds ++ .keyword .alt :: ks))) := by
  obtain ⟨a, rest, canonicalFalse, kinds⟩ := h
  refine ⟨.ifElse .start condition first a, rest,
    ⟨canonical, ⟨canonicalTrue, closed⟩, canonicalFalse⟩, ?_⟩
  simp only [Stmt.kinds, kinds, List.append_assoc, List.cons_append]

theorem ret (h : BeginsExpr (BinaryOp.loosest + 2) ks) : BeginsStmt (.keyword .ret :: ks) := by
  obtain ⟨e, rest, canonical, -, kinds⟩ := h
  refine ⟨.ret .start e, rest ++ [.symbol .semicolon], canonical, ?_⟩
  simp only [Stmt.kinds, kinds, List.append_assoc, List.cons_append]

theorem expr (h : BeginsExpr (BinaryOp.loosest + 2) ks) : BeginsStmt ks := by
  obtain ⟨e, rest, canonical, -, kinds⟩ := h
  refine ⟨.expr .start e, rest ++ [.symbol .semicolon], canonical, ?_⟩
  simp only [Stmt.kinds, kinds, List.append_assoc]

end BeginsStmt

theorem terminated_faults (bound : Nat) (construct : Construct) (made : Expr → Stmt) :
    Faults (terminated bound construct made) (BeginsExpr (BinaryOp.loosest + 2)) := by
  intro s e r h
  obtain h | ⟨value, s₁, hvalue, h⟩ := bind_eq_error h
  · exact expressionWithin_faults bound _ _ _ h
  obtain ⟨readValue, canonical, tight⟩ := expressionWithin_gives bound _ _ _ hvalue
  obtain h | ⟨close, s₂, hclose, h⟩ := bind_eq_error h
  · refine .behind readValue (require_faults _ _ rfl _ _ _ h) ?_
    rintro _ rfl
    rw [List.append_nil]
    exact .of_canonical canonical tight
  · cases h

theorem alternative_faults {bound : Nat} (hf : Faults (statementWithin bound) BeginsStmt)
    (position : Position) (condition : Expr) (whenTrue : Stmt) {s r : Stream} {e : ParseError}
    (h : alternative bound position condition whenTrue s = .error e r) :
    s.head.kind = .keyword .alt ∧ ∃ s₁, Reads s s₁ [.keyword .alt] ∧ Stops s₁ e r BeginsStmt := by
  obtain h | ⟨chosen, s₁, haccept, hrest⟩ := bind_eq_error h
  · exact (accept_ne_error h).elim
  obtain ⟨rfl, halt, readElse⟩ | ⟨rfl, rfl, -⟩ := accept_eq_ok Kind.noConfusion haccept
  · obtain h | ⟨whenFalse, s₂, hfalse, h⟩ := bind_eq_error hrest
    · exact ⟨halt, s₁, readElse, hf _ _ _ h⟩
    · cases h
  · cases hrest

/-- What reads on behind the keyword of an `if`. -/
def test (bound : Nat) (position : Position) : Parser Stmt := do
  let _ ← require (.symbol .leftParen) .ifStatement
  let condition ← expressionWithin bound
  let _ ← require (.symbol .rightParen) .ifStatement
  let whenTrue ← statementWithin bound
  alternative bound position condition whenTrue

theorem test_faults {bound : Nat} (hf : Faults (statementWithin bound) BeginsStmt)
    (position : Position) :
    Faults (test bound position) fun ks => BeginsStmt (.keyword .cond :: ks) := by
  intro s e r h
  unfold test at h
  obtain h | ⟨left, s₁, hleft, h⟩ := bind_eq_error h
  · refine require_faults _ _ ?_ _ _ _ h
    exact ⟨.ifThen .start (.literal .start 0) (.empty .start), _, ⟨trivial, trivial⟩, rfl⟩
  have readOpen := require_eq_ok Kind.noConfusion hleft
  obtain h | ⟨condition, s₂, hcondition, h⟩ := bind_eq_error h
  · exact .behind readOpen (expressionWithin_faults bound _ _ _ h) fun ks begins => .condition begins
  obtain ⟨readCondition, canonical, tight⟩ := expressionWithin_gives bound _ _ _ hcondition
  have readTest := readOpen.cons readCondition
  obtain h | ⟨right, s₃, hright, h⟩ := bind_eq_error h
  · refine .behind readTest (require_faults _ _ rfl _ _ _ h) ?_
    rintro _ rfl
    rw [List.append_nil]
    exact .condition (.of_canonical canonical tight)
  have readClosed := readTest.trans (require_eq_ok Kind.noConfusion hright)
  obtain h | ⟨whenTrue, s₄, htrue, h⟩ := bind_eq_error h
  · refine .behind readClosed (hf _ _ _ h) fun ks begins => ?_
    simpa only [List.append_assoc, List.cons_append, List.nil_append] using
      begins.whenTrue canonical
  obtain ⟨readTrue, canonicalTrue, dangling⟩ := statementWithin_gives bound _ _ _ htrue
  -- an `if` without `else` as first arm would have taken the `else` that follows
  obtain ⟨halt, s₅, readElse, stops⟩ := alternative_faults hf _ _ _ h
  have closed : whenTrue.isOpen = false :=
    eq_false_of_ne_true (fun hopen => dangling hopen halt)
  refine .behind ((readClosed.trans readTrue).trans readElse) stops fun ks begins => ?_
  simpa only [List.append_assoc, List.cons_append, List.nil_append] using
    begins.whenFalse canonical canonicalTrue closed

theorem statementWithin_faults (bound : Nat) : Faults (statementWithin bound) BeginsStmt := by
  induction bound with
  | zero => exact reject_faults _ .nil
  | succ bound ih =>
      intro s e r h
      unfold statementWithin at h
      obtain h | ⟨found, s₁, hnext, h⟩ := bind_eq_error h
      · cases h
      cases found with
      | none =>
          obtain rfl : s = s₁ := (EStateM.Result.ok.inj hnext).2
          exact reject_faults _ .nil _ _ _ h
      | some token =>
          obtain ⟨rfl, rfl⟩ := next?_eq_ok hnext
          have simple (h : terminated (bound + 1) .expressionStatement (.expr s₁.head.position) s₁ =
              .error e r) : Stops s₁ e r BeginsStmt :=
            (terminated_faults _ _ _ _ _ _ h).imp fun ks begins => .expr begins
          cases hkind : s₁.head.kind with
          | keyword word =>
              have read := reads_head hkind Kind.noConfusion
              simp only [hkind] at h
              cases word with
              | int => exact reject_faults _ .nil _ _ _ h
              | ret =>
                  obtain h | ⟨token, s₂, htake, h⟩ := bind_eq_error h
                  · cases h
                  obtain ⟨rfl, rfl⟩ := take_eq_ok htake
                  exact .behind read (terminated_faults _ _ _ _ _ _ h) fun ks begins => .ret begins
              | cond =>
                  obtain h | ⟨token, s₂, htake, h⟩ := bind_eq_error h
                  · cases h
                  obtain ⟨rfl, rfl⟩ := take_eq_ok htake
                  exact .behind read (test_faults ih _ _ _ _ h) fun ks begins => begins
              | alt => exact simple h
          | symbol mark =>
              simp only [hkind] at h
              cases mark with
              | semicolon =>
                  obtain h | ⟨token, s₂, htake, h⟩ := bind_eq_error h <;> cases h
              | _ => exact simple h
          | _ =>
              simp only [hkind] at h
              exact simple h

/-- What a declaration begins with behind its name. -/
theorem BeginsItem.initial {name : String} {ks : List Kind}
    (h : BeginsExpr (BinaryOp.loosest + 2) ks) :
    BeginsItem (.keyword .int :: .identifier name :: .symbol .assign :: ks) := by
  obtain ⟨e, rest, canonical, -, kinds⟩ := h
  refine ⟨.declare .start name .start (some e), rest ++ [.symbol .semicolon], ?_, ?_⟩
  · rintro _ ⟨⟩
    exact canonical
  · simp only [Stmt.kinds, Stmt.initialKinds, kinds, List.append_assoc, List.cons_append]

theorem BeginsItem.declared (name : String) {ks rest : List Kind}
    (h : [.keyword .int, .identifier name, .symbol .semicolon] = ks ++ rest) : BeginsItem ks :=
  ⟨.declare .start name .start none, rest, nofun, h⟩

theorem initialWithin_faults (bound : Nat) {s r : Stream} {e : ParseError}
    (h : initialWithin bound s = .error e r) :
    Stops s e r fun ks => ∃ ks', ks = .symbol .assign :: ks' ∧
      BeginsExpr (BinaryOp.loosest + 2) ks' := by
  unfold initialWithin at h
  obtain h | ⟨chosen, s₁, haccept, hrest⟩ := bind_eq_error h
  · exact (accept_ne_error h).elim
  obtain ⟨rfl, -, readMark⟩ | ⟨rfl, rfl, -⟩ := accept_eq_ok Kind.noConfusion haccept
  · obtain h | ⟨value, s₂, hvalue, h⟩ := bind_eq_error hrest
    · exact .behind readMark (expressionWithin_faults bound _ _ _ h)
        fun ks begins => ⟨ks, rfl, begins⟩
    · cases h
  · cases hrest

theorem declarationWithin_faults (bound : Nat) : Faults (declarationWithin bound) BeginsItem := by
  intro s e r h
  unfold declarationWithin at h
  obtain h | ⟨token, s₁, htoken, h⟩ := bind_eq_error h
  · exact require_faults _ _ (.declared "a" rfl) _ _ _ h
  have readToken := require_eq_ok Kind.noConfusion htoken
  obtain h | ⟨⟨name, position⟩, s₂, hname, h⟩ := bind_eq_error h
  · refine .behind readToken (identifier_faults _ rfl _ _ _ h) ?_
    rintro _ rfl
    exact .declared "a" rfl
  have readName := readToken.cons (identifier_eq_ok hname)
  obtain h | ⟨initial, s₃, hinitial, h⟩ := bind_eq_error h
  · refine .behind readName (initialWithin_faults bound h) ?_
    rintro _ ⟨ks, rfl, begins⟩
    exact .initial begins
  obtain ⟨readInitial, canonical⟩ := initialWithin_gives hinitial
  obtain h | ⟨close, s₄, hclose, h⟩ := bind_eq_error h
  · refine .behind (readName.trans readInitial) (require_faults _ _ rfl _ _ _ h) ?_
    rintro _ rfl
    refine ⟨.declare .start name .start initial, [.symbol .semicolon], canonical, ?_⟩
    rw [List.append_nil]
    rfl
  · cases h

theorem itemWithin_faults (bound : Nat) : Faults (itemWithin bound) BeginsItem := by
  intro s e r h
  unfold itemWithin at h
  obtain h | ⟨k, s₁, hpeek, h⟩ := bind_eq_error h
  · cases h
  obtain ⟨rfl, rfl⟩ := peek_eq_ok hpeek
  by_cases hkind : s₁.head.kind = .keyword .int
  · rw [if_pos hkind] at h
    exact declarationWithin_faults bound _ _ _ h
  · rw [if_neg hkind] at h
    exact (statementWithin_faults bound _ _ _ h).imp fun ks begins => begins.item

theorem BeginsItems.cons {a : Stmt} {ks : List Kind} (canonical : a.CanonicalItem)
    (h : BeginsItems ks) : BeginsItems (a.kinds ++ ks) := by
  obtain ⟨items, rest, canonicals, kinds⟩ := h
  refine ⟨a :: items, rest, List.forall_mem_cons.mpr ⟨canonical, canonicals⟩, ?_⟩
  rw [List.flatMap_cons, kinds, List.append_assoc]

theorem itemsWithin_faults (bound : Nat) : Faults (itemsWithin bound) BeginsItems := by
  induction bound with
  | zero =>
      intro s e r h
      cases h
  | succ bound ih =>
      intro s e r h
      unfold itemsWithin at h
      obtain h | ⟨k, s₁, hpeek, h⟩ := bind_eq_error h
      · cases h
      obtain ⟨rfl, rfl⟩ := peek_eq_ok hpeek
      split at h
      · cases h
      · obtain h | ⟨a, s₂, ha, h⟩ := bind_eq_error h
        · refine (itemWithin_faults _ _ _ _ h).imp ?_
          rintro ks ⟨a, rest, canonical, kinds⟩
          refine ⟨[a], rest, List.forall_mem_singleton.mpr canonical, ?_⟩
          rw [List.flatMap_singleton, kinds]
        obtain ⟨readItem, canonical⟩ := itemWithin_gives ha
        obtain h | ⟨items, s₃, hitems, h⟩ := bind_eq_error h
        · exact .behind readItem (ih _ _ _ h) fun ks begins => begins.cons canonical
        · cases h

/-- The tokens in front of the body of a function. -/
def signature (name : String) : List Kind :=
  [.keyword .int, .identifier name, .symbol .leftParen, .symbol .rightParen, .symbol .leftBrace]

theorem BeginsProgram.signature (name : String) {ks rest : List Kind}
    (h : Parser.signature name = ks ++ rest) : BeginsProgram ks := by
  refine ⟨⟨name, [], .start⟩, rest ++ [.symbol .rightBrace, .endOfFile], nofun, ?_⟩
  rw [← List.append_assoc, ← h]
  rfl

theorem BeginsProgram.body {name : String} {ks : List Kind} (h : BeginsItems ks) :
    BeginsProgram (Parser.signature name ++ ks) := by
  obtain ⟨items, rest, canonical, kinds⟩ := h
  refine ⟨⟨name, items, .start⟩, rest ++ [.symbol .rightBrace, .endOfFile], canonical, ?_⟩
  simp only [Program.kinds, Parser.signature, kinds, List.append_assoc, List.cons_append,
    List.nil_append]

theorem function_faults : Faults function BeginsProgram := by
  intro s e r h
  unfold function at h
  obtain h | ⟨token, s₁, htoken, h⟩ := bind_eq_error h
  · exact require_faults _ _ (.signature "main" rfl) _ _ _ h
  have readType := require_eq_ok Kind.noConfusion htoken
  obtain h | ⟨⟨name, position⟩, s₂, hname, h⟩ := bind_eq_error h
  · refine .behind readType (identifier_faults _ rfl _ _ _ h) ?_
    rintro _ rfl
    exact .signature "main" rfl
  have readName := readType.cons (identifier_eq_ok hname)
  obtain h | ⟨left, s₃, hleft, h⟩ := bind_eq_error h
  · refine .behind readName (require_faults _ _ rfl _ _ _ h) ?_
    rintro _ rfl
    exact .signature name rfl
  have readLeft := readName.trans (require_eq_ok Kind.noConfusion hleft)
  obtain h | ⟨right, s₄, hright, h⟩ := bind_eq_error h
  · refine .behind readLeft (require_faults _ _ rfl _ _ _ h) ?_
    rintro _ rfl
    exact .signature name rfl
  have readRight := readLeft.trans (require_eq_ok Kind.noConfusion hright)
  obtain h | ⟨opening, s₅, hopening, h⟩ := bind_eq_error h
  · refine .behind readRight (require_faults _ _ rfl _ _ _ h) ?_
    rintro _ rfl
    exact .signature name rfl
  have readSignature := readRight.trans (require_eq_ok Kind.noConfusion hopening)
  obtain h | ⟨bound, s₆, hbound, h⟩ := bind_eq_error h
  · cases h
  cases hbound
  obtain h | ⟨body, s₇, hbody, h⟩ := bind_eq_error h
  · exact .behind readSignature (itemsWithin_faults _ _ _ _ h) fun ks begins => .body begins
  obtain ⟨readBody, canonical⟩ := itemsWithin_gives hbody
  obtain h | ⟨closing, s₈, hclosing, h⟩ := bind_eq_error h
  · refine .behind (readSignature.trans readBody) (require_faults _ _ rfl _ _ _ h) ?_
    rintro _ rfl
    rw [List.append_nil]
    exact .body ⟨body, [], canonical, (List.append_nil _).symm⟩
  · cases h

/-- The tokens in front of the fault of a rejected program are the beginning of a program. -/
theorem program_faults : Faults program BeginsProgram := by
  intro s e r h
  unfold program at h
  obtain h | ⟨p, s₁, hfunction, h⟩ := bind_eq_error h
  · exact function_faults _ _ _ h
  obtain ⟨read, canonical⟩ := function_gives hfunction
  obtain h | ⟨token, s₂, hend, h⟩ := bind_eq_error h
  · refine .behind read (require_faults _ _ rfl _ _ _ h) ?_
    rintro _ rfl
    rw [List.append_nil]
    exact ⟨p, [.endOfFile], canonical, rfl⟩
  · cases h

end Stmt

end IntLang.Parser
