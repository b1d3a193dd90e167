import Overload.Proofs.Syntax.Grammar

/-! A parser that decides with one token of lookahead. -/

namespace Overload.Syntax

open BinaryOp Token Level List Option

variable {t : Token} {ts us : List Token} {e : Expr} {n : Nat} {op : Option BinaryOp} {s : String}

def PrefixOp.all : List PrefixOp := [.pos, .neg, .not, .invert, .typeof, .void, .delete]

def UpdateOp.all : List UpdateOp := [.increment, .decrement]

namespace Token

def operator? (t : Token) : Option BinaryOp := BinaryOp.all.find? fun op => symbol op.token == t

def unary? (t : Token) : Option PrefixOp := PrefixOp.all.find? fun op => symbol op.token == t

def update? (t : Token) : Option UpdateOp := UpdateOp.all.find? fun op => symbol op.token == t

def assignment? (t : Token) : Option (Option BinaryOp) :=
  (none :: (BinaryOp.all.filter isAssignable).map some).find? fun op => symbol (assignToken op) == t

def binds? (t : Token) : Option Nat :=
  if t = .mark ")" ∨ t = .mark "]" ∨ t = .mark ":" then some 0
  else if t = .mark "," then some 1
  else if t.assignment?.isSome then some 3
  else if t = .mark "?" then some 4
  else if t.update?.isSome then some 18
  else if t = .mark "." ∨ t = .mark "[" ∨ t = .mark "(" then some 20
  else t.operator?.map fun op => (levelOf op).rank

end Token

def stops (n : Nat) (ts : List Token) : Bool :=
  ts.head?.all fun t => t.binds?.any fun b => b < n

def advance {α : Type} (ts : List Token) (r : Option (α × List Token)) :
    Option (α × {rest : List Token // rest.length < ts.length}) :=
  r.bind fun x => if h : x.2.length < ts.length then some (x.1, ⟨x.2, h⟩) else none

lemma advance_some {α : Type} {rest : List Token} (a : α) (h : rest.length < ts.length) :
    advance ts (some (a, rest)) = some (a, ⟨rest, h⟩) := by
  simp [advance, h]

lemma advance_eq_some_iff {α : Type} {r : Option (α × List Token)} {a : α}
    {rest : {rest : List Token // rest.length < ts.length}} :
    advance ts r = some (a, rest) ↔ r = some (a, rest.1) := by
  rcases r with _ | ⟨b, us⟩
  · simp [advance]
  · by_cases h : us.length < ts.length
    · simp [advance, h, Subtype.ext_iff]
    · have hne : us ≠ rest.1 := fun he => h (he ▸ rest.2)
      simp [advance, h, hne]

lemma Level.sub_rank_operand? {l m : Level} (h : l.operand? = some m) :
    22 - m.rank < 22 - l.rank := by
  revert h
  cases l <;> cases m <;> decide

mutual

def parse (l : Level) (ts : List Token) : Option (Expr × List Token) :=
  match l with
  | .expression => do
    let (e, ⟨rest, _⟩) ← advance ts (parse .assignment ts)
    if rest.head? = some (.mark ",") then do
      let (es, rest) ← parseItems false rest.tail
      some (.sequence (e :: es), rest)
    else some (e, rest)
  | .assignment =>
    match ts with
    | [] => none
    | t :: us =>
      if t = .word "yield" then
        if us.head? = some (.mark "*") then do
          let (e, rest) ← parse .assignment us.tail
          some (.delegate e, rest)
        else if stops 3 us then some (.pause, us)
        else do
          let (e, rest) ← parse .assignment us
          some (.yield e, rest)
      else do
        let (e, ⟨rest, _⟩) ← advance (t :: us) (parse .conditional (t :: us))
        match rest.head?.bind assignment? with
        | some op =>
          if e.isTarget then do
            let (v, rest) ← parse .assignment rest.tail
            some (.assign op e v, rest)
          else none
        | none => some (e, rest)
  | .conditional => do
    let (c, ⟨rest, _⟩) ← advance ts (parse .shortCircuit ts)
    if rest.head? = some (.mark "?") then do
      let (a, ⟨rest, _⟩) ← advance rest (parse .assignment rest.tail)
      if rest.head? = some (.mark ":") then do
        let (b, rest) ← parse .assignment rest.tail
        some (.conditional c a b, rest)
      else none
    else some (c, rest)
  | .shortCircuit => do
    let (e, ⟨rest, _⟩) ← advance ts (parse .bitOr ts)
    if rest.head? = some (symbol nullish.token) then parseOperands .coalesce e rest
    else do
      let (e, ⟨rest, _⟩) ← advance ts (parseOperands .logicalAnd e rest)
      parseOperands .logicalOr e rest
  | .exponentiation =>
    if ts.head?.any fun t => t.unary?.isSome || t = .word "await" then parse .unary ts
    else do
      let (l, ⟨rest, _⟩) ← advance ts (parse .update ts)
      if rest.head? = some (symbol pow.token) then do
        let (r, rest) ← parse .exponentiation rest.tail
        some (.binary .pow l r, rest)
      else some (l, rest)
  | .unary =>
    match ts with
    | [] => none
    | t :: us =>
      match t.unary? with
      | some op => do
        let (e, rest) ← parse .unary us
        some (.unary op e, rest)
      | none =>
        if t = .word "await" then do
          let (e, rest) ← parse .unary us
          some (.await e, rest)
        else parse .update (t :: us)
  | .update =>
    match ts with
    | [] => none
    | t :: us =>
      match t.update? with
      | some op => do
        let (e, rest) ← parse .unary us
        if e.isTarget then some (.update op true e, rest) else none
      | none => do
        let (e, rest) ← parse .leftHandSide (t :: us)
        match rest.head?.bind update? with
        | some op => if e.isTarget then some (.update op false e, rest.tail) else none
        | none => some (e, rest)
  | .leftHandSide => do
    let (e, ⟨rest, _⟩) ← advance ts (parse .primary ts)
    parseSuffixes e rest
  | .primary =>
    match ts with
    | .number n :: rest => some (.number n, rest)
    | .text s :: rest => some (.text s, rest)
    | .word s :: rest =>
      if s = "true" then some (.bool true, rest)
      else if s = "false" then some (.bool false, rest)
      else if s = "null" then some (.null, rest)
      else if isIdentifier s then some (.ident s, rest)
      else none
    | .mark s :: rest =>
      if s = "(" then do
        let (e, rest) ← parse .expression rest
        if rest.head? = some (.mark ")") then some (e, rest.tail) else none
      else none
    | [] => none
  | l =>
    match _ : l.operand? with
    | some m => do
      let (e, ⟨rest, _⟩) ← advance ts (parse m ts)
      parseOperands l e rest
    | none => none
termination_by 24 * ts.length + (22 - l.rank)
decreasing_by
  all_goals first
    | exact Nat.add_lt_add_left (sub_rank_operand? ‹_›) _
    | (simp only [rank, length_cons, length_tail] at *; omega)

def parseOperands (l : Level) (e : Expr) (ts : List Token) : Option (Expr × List Token) :=
  match ts with
  | [] => some (e, [])
  | t :: us =>
    match t.operator?, l.operand? with
    | some op, some m =>
      if levelOf op = l then do
        let (r, ⟨rest, _⟩) ← advance us (parse m us)
        parseOperands l (.binary op e r) rest
      else some (e, t :: us)
    | _, _ => some (e, t :: us)
termination_by 24 * ts.length
decreasing_by all_goals (simp only [length_cons]; omega)

def parseSuffixes (e : Expr) (ts : List Token) : Option (Expr × List Token) :=
  match ts with
  | [] => some (e, [])
  | t :: us =>
    if t = .mark "." then
      match us with
      | .word s :: rest => if isName s then parseSuffixes (.member e s) rest else none
      | _ => none
    else if t = .mark "[" then do
      let (p, ⟨rest, _⟩) ← advance us (parse .expression us)
      if rest.head? = some (.mark "]") then parseSuffixes (.index e p) rest.tail else none
    else if t = .mark "(" then
      if us.head? = some (.mark ")") then parseSuffixes (.call e []) us.tail
      else do
        let (es, ⟨rest, _⟩) ← advance us (parseItems true us)
        if rest.head? = some (.mark ")") then parseSuffixes (.call e es) rest.tail else none
    else some (e, t :: us)
termination_by 24 * ts.length
decreasing_by all_goals (simp only [length_cons, length_tail]; omega)

def parseItems (trailing : Bool) (ts : List Token) : Option (List Expr × List Token) := do
  let (e, ⟨rest, _⟩) ← advance ts (parse .assignment ts)
  if rest.head? = some (.mark ",") then
    if trailing ∧ rest.tail.head? = some (.mark ")") then some ([e], rest.tail)
    else do
      let (es, rest) ← parseItems trailing rest.tail
      some (e :: es, rest)
  else some ([e], rest)
termination_by 24 * ts.length + 22
decreasing_by all_goals (simp only [rank, length_tail]; omega)

end

lemma parse_chain {l m : Level} (hm : l.operand? = some m) (ts : List Token) :
    parse l ts = (advance ts (parse m ts)).bind fun r => parseOperands l r.1 r.2.1 := by
  have h := parse.eq_def l ts
  cases l <;> simp only [operand?, some.injEq, reduceCtorEq] at hm <;> subst hm <;>
    exact h

lemma parse_unary_eq_update (ts : List Token) (h : t.unary? = none) (ha : t ≠ .word "await") :
    parse .unary (t :: ts) = parse .update (t :: ts) := by
  rw [parse]
  simp [h, ha]

lemma operator?_symbol (op : BinaryOp) : (symbol op.token).operator? = some op := by
  cases op <;> decide

lemma unary?_symbol (op : PrefixOp) : (symbol op.token).unary? = some op := by
  cases op <;> decide

lemma update?_symbol (op : UpdateOp) : (symbol op.token).update? = some op := by
  cases op <;> decide

lemma assignment?_symbol (h : op.all isAssignable = true) :
    (symbol (assignToken op)).assignment? = some op := by
  cases op with
  | none => decide
  | some op =>
    revert h
    cases op <;> decide

lemma binds?_operator (op : BinaryOp) :
    (symbol op.token).binds? = some (levelOf op).rank := by
  cases op <;> decide

lemma binds?_update (op : UpdateOp) : (symbol op.token).binds? = some 18 := by
  cases op <;> decide

lemma binds?_assign (h : op.all isAssignable = true) :
    (symbol (assignToken op)).binds? = some 3 := by
  cases op with
  | none => decide
  | some op =>
    revert h
    cases op <;> decide

def starts (n : Nat) (t : Token) : Bool :=
  !(t.binds?.any fun b => b < 3) && t != .mark "*" && (n < 4 || t != .word "yield") &&
    (n < 18 || t.unary?.isNone && t != .word "await") && (n < 20 || t.update?.isNone)

lemma starts_mono {m : Nat} (hmn : m ≤ n) (h : starts n t = true) : starts m t = true := by
  simp only [starts, Bool.and_eq_true, Bool.or_eq_true, decide_eq_true_eq] at h ⊢
  refine ⟨⟨⟨h.1.1.1, ?_⟩, ?_⟩, ?_⟩
  · exact h.1.1.2.imp_left (by omega)
  · exact h.1.2.imp_left (by omega)
  · exact h.2.imp_left (by omega)

lemma symbol_ne_word {u : String} (hu : u.toList.all Char.isAlpha = true → u ∈ reserved)
    (hs : s ∉ reserved) : (symbol u == .word s) = false := by
  rw [symbol]
  split
  · rename_i ha
    have hne : u ≠ s := fun he => hs (he ▸ hu ha)
    simpa using hne
  · rfl

lemma starts_word (hs : s ∉ reserved) (n : Nat) : starts n (.word s) = true := by
  have hop : (word s).operator? = none := by
    have hr : ∀ op ∈ BinaryOp.all, op.token.toList.all Char.isAlpha = true →
        op.token ∈ reserved := by decide
    rw [operator?, find?_eq_none]
    intro op hop
    simp [symbol_ne_word (hr op hop) hs]
  have hun : (word s).unary? = none := by
    have hr : ∀ op ∈ PrefixOp.all, op.token.toList.all Char.isAlpha = true →
        op.token ∈ reserved := by decide
    rw [unary?, find?_eq_none]
    intro op hop
    simp [symbol_ne_word (hr op hop) hs]
  have hup : (word s).update? = none := by
    have hr : ∀ op ∈ UpdateOp.all, op.token.toList.all Char.isAlpha = true →
        op.token ∈ reserved := by decide
    rw [update?, find?_eq_none]
    intro op hop
    simp [symbol_ne_word (hr op hop) hs]
  have has : (word s).assignment? = none := by
    have hr : ∀ op ∈ none :: (BinaryOp.all.filter isAssignable).map some,
        (assignToken op).toList.all Char.isAlpha = true → assignToken op ∈ reserved := by decide
    rw [assignment?, find?_eq_none]
    intro op hop
    simp [symbol_ne_word (hr op hop) hs]
  have hy : s ≠ "yield" ∧ s ≠ "await" := by
    constructor <;> (rintro rfl; exact hs (by decide))
  simp [starts, binds?, hop, hun, hup, has, hy]

lemma rank_le_of_mem_units {l m : Level} (h : m ∈ l.units) : l.rank ≤ m.rank := by
  revert m
  cases l <;> decide

lemma head_commas (parts : List (List Token)) (h : ts = t :: us) :
    ∃ rest, commas (ts :: parts) = t :: rest := by
  subst h
  cases parts with
  | nil => exact ⟨us, by simp [commas, intercalate]⟩
  | cons p ps => exact ⟨_, by simp [commas, intercalate, intersperse]; rfl⟩

lemma Reads.head {l : Level} (h : Reads l ts e) :
    ∃ t rest, ts = t :: rest ∧ starts l.rank t = true := by
  induction h with
  | unit hm _ ih =>
    obtain ⟨t, rest, rfl, ht⟩ := ih
    exact ⟨t, rest, rfl, starts_mono (rank_le_of_mem_units hm) ht⟩
  | ident hs =>
    refine ⟨_, _, rfl, starts_word ?_ _⟩
    simpa [isIdentifier] using ((Bool.and_eq_true _ _).mp hs).2
  | number | text => exact ⟨_, _, rfl, rfl⟩
  | @bool b => exact ⟨_, _, rfl, by cases b <;> decide⟩
  | null | group => exact ⟨_, _, rfl, by decide⟩
  | member _ _ ih | index _ _ ih _ | call _ _ _ ih _ | postfixed _ _ ih | power _ _ ih _
  | conditional _ _ _ ih _ _ | assign _ _ _ _ ih _ =>
    obtain ⟨t, rest, rfl, ht⟩ := ih
    exact ⟨t, _, rfl, starts_mono (by decide) ht⟩
  | binary _ _ _ ih _ =>
    obtain ⟨t, rest, rfl, ht⟩ := ih
    exact ⟨t, _, rfl, ht⟩
  | @prefixed op | @unary op => exact ⟨_, _, rfl, by cases op <;> decide⟩
  | await | pause | yield | delegate => exact ⟨_, _, rfl, by decide⟩
  | @sequence items _ hl ih =>
    cases items with
    | nil => simp at hl
    | cons a items =>
      obtain ⟨t, rest, ha, ht⟩ := ih a (by simp)
      obtain ⟨more, hmore⟩ := head_commas (items.map (·.1)) ha
      exact ⟨t, more, by simpa using hmore, starts_mono (by decide) ht⟩

lemma stops_mono {m : Nat} (hmn : m ≤ n) (h : stops m ts = true) : stops n ts = true := by
  cases ts with
  | nil => rfl
  | cons t ts =>
    simp only [stops, head?_cons, all_some, Option.any_eq_true,
      decide_eq_true_eq] at h ⊢
    obtain ⟨b, hb, hlt⟩ := h
    exact ⟨b, hb, by omega⟩

lemma stops_cons {b : Nat} (ts : List Token) (hb : t.binds? = some b) (hn : b < n) :
    stops n (t :: ts) = true := by
  simp [stops, hb, hn]

def resume (l : Level) (e : Expr) (ts : List Token) : Option (Expr × List Token) :=
  if l.operand?.isSome then parseOperands l e ts
  else if l = .leftHandSide then parseSuffixes e ts
  else some (e, ts)

def bound : Level → Nat
  | .conditional => 3
  | l => l.rank

def reach (l : Level) : Nat :=
  if l.operand?.isSome ∨ l = .leftHandSide then l.rank + 1 else bound l

lemma bound_le_rank (l : Level) : bound l ≤ l.rank := by
  cases l <;> decide

lemma bound_le_reach (l : Level) : bound l ≤ reach l := by
  cases l <;> decide

lemma binds?_of_stops (h : stops n ts = true) (ht : ts.head? = some t) :
    ∃ b, t.binds? = some b ∧ b < n := by
  simpa [stops, ht, Option.any_eq_true] using h

lemma head?_ne_of_stops {b : Nat} (h : stops n ts = true) (hb : t.binds? = some b) (hn : n ≤ b) :
    ts.head? ≠ some t := by
  intro ht
  obtain ⟨c, hc, hlt⟩ := binds?_of_stops h ht
  simp only [hb, some.injEq] at hc
  omega

lemma operator?_token {op : BinaryOp} (h : t.operator? = some op) : t = symbol op.token := by
  have := find?_some h
  exact (beq_iff_eq.1 this).symm

lemma update?_token {op : UpdateOp} (h : t.update? = some op) : t = symbol op.token := by
  have := find?_some h
  exact (beq_iff_eq.1 this).symm

lemma assignment?_token (h : t.assignment? = some op) :
    t = symbol (assignToken op) ∧ op.all isAssignable = true := by
  have := find?_some h
  refine ⟨(beq_iff_eq.1 this).symm, ?_⟩
  have := mem_of_find?_eq_some h
  cases op with
  | none => rfl
  | some op => exact (by simpa using this : op ∈ BinaryOp.all ∧ isAssignable op = true).2

lemma parseOperands_of_stops {l : Level} (e : Expr) (h : stops l.rank ts = true) :
    parseOperands l e ts = some (e, ts) := by
  rw [parseOperands.eq_def]
  split
  · rfl
  split
  · rename_i op m hop _
    rw [if_neg]
    rintro rfl
    obtain rfl := operator?_token hop
    exact head?_ne_of_stops h (binds?_operator op) (Nat.le_refl _) head?_cons
  · rfl

lemma parseSuffixes_of_stops (e : Expr) (h : stops 20 ts = true) :
    parseSuffixes e ts = some (e, ts) := by
  cases ts with
  | nil => rw [parseSuffixes]
  | cons t us =>
    have hd (m : String) (hm : (Token.mark m).binds? = some 20) : t ≠ .mark m := by
      rintro rfl
      exact head?_ne_of_stops h hm (Nat.le_refl _) head?_cons
    rw [parseSuffixes.eq_def]
    simp only [hd "." (by decide), hd "[" (by decide), hd "(" (by decide), if_false]

lemma resume_of_stops {l : Level} (e : Expr) (h : stops l.rank ts = true) :
    resume l e ts = some (e, ts) := by
  rw [resume]
  split
  · exact parseOperands_of_stops e h
  split
  · rename_i hl
    subst hl
    exact parseSuffixes_of_stops e h
  · rfl

structure Parses (l : Level) (ts : List Token) (e : Expr) : Prop where
  ne_nil : ts ≠ []
  resumes : ∀ rest, stops (reach l) rest = true → parse l (ts ++ rest) = resume l e rest

namespace Parses

variable {l : Level}

lemma close (h : Parses l ts e) (rest : List Token) (hr : stops (bound l) rest = true) :
    parse l (ts ++ rest) = some (e, rest) := by
  rw [h.resumes rest (stops_mono (bound_le_reach l) hr),
    resume_of_stops e (stops_mono (bound_le_rank l) hr)]

lemma length_lt (h : Parses l ts e) (rest : List Token) : rest.length < (ts ++ rest).length := by
  have := length_pos_iff.2 h.ne_nil
  rw [length_append]
  omega

lemma advance {rest : List Token} (h : Parses l ts e) (hus : us = ts ++ rest)
    (hr : stops (bound l) rest = true) :
    advance us (parse l us) = some (e, ⟨rest, hus ▸ h.length_lt rest⟩) := by
  subst hus
  rw [h.close rest hr, advance_some]

end Parses

lemma parses_chain {l m : Level} (hm : l.operand? = some m) (h : Parses m ts e) :
    Parses l ts e := by
  refine ⟨h.ne_nil, fun rest hr => ?_⟩
  have hrank : reach l ≤ bound m := by
    revert hm
    cases l <;> cases m <;> decide
  rw [parse_chain hm, h.advance rfl (stops_mono hrank hr), resume, hm]
  rfl

lemma parses_expression_unit (h : Parses .assignment ts e) : Parses .expression ts e := by
  refine ⟨h.ne_nil, fun rest hr => ?_⟩
  have hcomma : rest.head? ≠ some (.mark ",") := head?_ne_of_stops hr (b := 1) (by decide) (by decide)
  rw [parse, h.advance rfl (stops_mono (by decide) hr)]
  simp [hcomma, resume, operand?]

lemma assignment?_of_stops (h : stops 3 ts = true) : ts.head?.bind assignment? = none := by
  rw [bind_eq_none_iff]
  intro t ht
  cases ha : t.assignment? with
  | none => rfl
  | some op =>
    obtain ⟨rfl, hop⟩ := assignment?_token ha
    exact absurd ht (head?_ne_of_stops h (binds?_assign hop) (Nat.le_refl _))

lemma update?_of_stops (h : stops 18 ts = true) : ts.head?.bind update? = none := by
  rw [bind_eq_none_iff]
  intro t ht
  cases ha : t.update? with
  | none => rfl
  | some op =>
    obtain rfl := update?_token ha
    exact absurd ht (head?_ne_of_stops h (binds?_update op) (Nat.le_refl _))

lemma parses_assignment_unit (hr : Reads .conditional ts e) (h : Parses .conditional ts e) :
    Parses .assignment ts e := by
  refine ⟨h.ne_nil, fun rest hs => ?_⟩
  obtain ⟨t, us, rfl, ht⟩ := hr.head
  have hyield : t ≠ .word "yield" := by
    rintro rfl
    simp [starts, rank] at ht
  rw [cons_append, parse, if_neg hyield,
    h.advance cons_append.symm (stops_mono (by decide) hs)]
  simp [assignment?_of_stops hs, resume, operand?]

lemma parses_conditional_unit (h : Parses .shortCircuit ts e) : Parses .conditional ts e := by
  refine ⟨h.ne_nil, fun rest hr => ?_⟩
  have hmark : rest.head? ≠ some (.mark "?") := head?_ne_of_stops hr (b := 4) (by decide) (by decide)
  rw [parse, h.advance rfl (stops_mono (by decide) hr)]
  simp [hmark, resume, operand?]

lemma parses_shortCircuit_coalesce (h : Parses .coalesce ts e) : Parses .shortCircuit ts e := by
  refine ⟨h.ne_nil, fun rest hr => ?_⟩
  have hp := h.close rest hr
  rw [parse_chain rfl] at hp
  obtain ⟨⟨d, us, hus⟩, hd, ho⟩ := bind_eq_some_iff.1 hp
  rw [parse, hd]
  by_cases hn : us.head? = some (symbol nullish.token)
  · simpa [hn, resume, operand?] using ho
  · -- without the operator the chain is its first operand
    have hstop : parseOperands .coalesce d us = some (d, us) := by
      rw [parseOperands.eq_def]
      split
      · rfl
      split
      · rename_i op m hop hm
        rw [if_neg]
        intro hl
        obtain rfl := operator?_token hop
        cases op <;> simp [levelOf] at hl
        exact hn head?_cons
      · rfl
    obtain ⟨rfl, rfl⟩ : d = e ∧ us = rest := by simpa [hstop] using ho
    simp [hn, parseOperands_of_stops d (stops_mono (n := logicalAnd.rank) (by decide) hr),
      advance_some d hus,
      parseOperands_of_stops d (stops_mono (n := logicalOr.rank) (by decide) hr), resume,
      operand?]

lemma parses_shortCircuit_logicalOr (h : Parses .logicalOr ts e) : Parses .shortCircuit ts e := by
  refine ⟨h.ne_nil, fun rest hr => ?_⟩
  have hp := h.close rest (stops_mono (by decide) hr)
  rw [parse_chain rfl] at hp
  obtain ⟨⟨d', us', hus'⟩, hd', ho'⟩ := bind_eq_some_iff.1 hp
  rw [advance_eq_some_iff, parse_chain rfl] at hd'
  obtain ⟨⟨d, us, hus⟩, hd, ho⟩ := bind_eq_some_iff.1 hd'
  rw [parse, hd]
  by_cases hn : us.head? = some (symbol nullish.token)
  · have hs : stops 6 us = true := by
      obtain ⟨vs, rfl⟩ := head?_eq_some_iff.1 hn
      exact stops_cons vs (binds?_operator .nullish) (by decide)
    rw [parseOperands_of_stops d (stops_mono (n := logicalAnd.rank) (by decide) hs)] at ho
    obtain ⟨rfl, rfl⟩ : d = d' ∧ us = us' := by simpa using ho
    obtain ⟨rfl, rfl⟩ : d = e ∧ us = rest := by
      simpa [parseOperands_of_stops d (l := .logicalOr) hs] using ho'
    exact absurd hn (head?_ne_of_stops hr (binds?_operator .nullish) (by decide))
  · have ho : parseOperands .logicalAnd d us = some (d', us') := ho
    simpa [hn, ho, advance_some d' hus', resume, operand?] using ho'

lemma parses_exponentiation_unit (hr : Reads .unary ts e) (h : Parses .unary ts e) :
    Parses .exponentiation ts e := by
  refine ⟨h.ne_nil, fun rest hs => ?_⟩
  have hp := h.close rest (stops_mono (by decide) hs)
  have hlt := h.length_lt rest
  have hpow : rest.head? ≠ some (symbol pow.token) :=
    head?_ne_of_stops hs (binds?_operator .pow) (by decide)
  obtain ⟨t, us, rfl, -⟩ := hr.head
  rw [parse, cons_append, head?_cons]
  split
  · simpa [resume, operand?] using hp
  · rename_i hop
    obtain ⟨hu, ha⟩ : t.unary? = none ∧ t ≠ .word "await" := by simpa using hop
    rw [cons_append] at hlt
    rw [cons_append, parse_unary_eq_update _ hu ha] at hp
    simp [hp, advance_some e hlt, hpow, resume, operand?]

lemma parses_unary_unit (hr : Reads .update ts e) (h : Parses .update ts e) :
    Parses .unary ts e := by
  refine ⟨h.ne_nil, fun rest hs => ?_⟩
  obtain ⟨t, us, rfl, ht⟩ := hr.head
  obtain ⟨hu, ha⟩ : t.unary? = none ∧ t ≠ .word "await" := by
    simp [starts, rank] at ht
    exact ht.2
  rw [cons_append, parse_unary_eq_update _ hu ha, ← cons_append,
    h.close _ (stops_mono (by decide) hs)]
  rfl

lemma parses_update_unit (hr : Reads .leftHandSide ts e) (h : Parses .leftHandSide ts e) :
    Parses .update ts e := by
  refine ⟨h.ne_nil, fun rest hs => ?_⟩
  obtain ⟨t, us, rfl, ht⟩ := hr.head
  have hu : t.update? = none := by
    simp [starts, rank] at ht
    exact ht.2
  have hp := h.close rest (stops_mono (by decide) hs)
  rw [cons_append] at hp ⊢
  rw [parse]
  simp [hu, hp, update?_of_stops hs, resume, operand?]

lemma parses_leftHandSide_unit (h : Parses .primary ts e) : Parses .leftHandSide ts e := by
  refine ⟨h.ne_nil, fun rest hr => ?_⟩
  rw [parse, h.advance rfl hr]
  rfl

lemma parses_unit {l m : Level} (hm : m ∈ l.units) (hr : Reads m ts e) (h : Parses m ts e) :
    Parses l ts e := by
  cases l with
  | expression =>
    obtain rfl := mem_singleton.1 hm
    exact parses_expression_unit h
  | assignment =>
    obtain rfl := mem_singleton.1 hm
    exact parses_assignment_unit hr h
  | conditional =>
    obtain rfl := mem_singleton.1 hm
    exact parses_conditional_unit h
  | shortCircuit =>
    rcases mem_pair.1 hm with rfl | rfl
    · exact parses_shortCircuit_coalesce h
    · exact parses_shortCircuit_logicalOr h
  | exponentiation =>
    obtain rfl := mem_singleton.1 hm
    exact parses_exponentiation_unit hr h
  | unary =>
    obtain rfl := mem_singleton.1 hm
    exact parses_unary_unit hr h
  | update =>
    obtain rfl := mem_singleton.1 hm
    exact parses_update_unit hr h
  | leftHandSide =>
    obtain rfl := mem_singleton.1 hm
    exact parses_leftHandSide_unit h
  | primary => simp [units] at hm
  | _ =>
    obtain rfl := mem_singleton.1 hm
    exact parses_chain rfl h

lemma parses_ident (hs : isIdentifier s = true) : Parses .primary [.word s] (.ident s) := by
  refine ⟨by simp, fun rest _ => ?_⟩
  have hne : s ∉ reserved := by simpa [isIdentifier] using ((Bool.and_eq_true _ _).mp hs).2
  have hword : s ≠ "true" ∧ s ≠ "false" ∧ s ≠ "null" := by
    refine ⟨?_, ?_, ?_⟩ <;> (rintro rfl; exact hne (by decide))
  rw [singleton_append, parse]
  simp [hword, hs, resume, operand?]

lemma parses_bool (b : Bool) :
    Parses .primary [.word (if b then "true" else "false")] (.bool b) := by
  refine ⟨by simp, fun rest _ => ?_⟩
  rw [singleton_append, parse]
  cases b <;> simp [resume, operand?]

lemma parses_null : Parses .primary [.word "null"] .null := by
  refine ⟨by simp, fun rest _ => ?_⟩
  rw [singleton_append, parse]
  simp [resume, operand?]

lemma parses_group (h : Parses .expression ts e) :
    Parses .primary (.mark "(" :: ts ++ [.mark ")"]) e := by
  refine ⟨by simp, fun rest _ => ?_⟩
  have hp := h.close (.mark ")" :: rest) (stops_cons rest (b := 0) (by decide) (by decide))
  rw [cons_append, cons_append, append_assoc, singleton_append, parse]
  simp [hp, resume, operand?]

lemma parses_suffix {d : Expr} (h : Parses .leftHandSide ts e)
    (hb : ∀ rest, stops 21 (us ++ rest) = true)
    (hs : ∀ rest, parseSuffixes e (us ++ rest) = parseSuffixes d rest) :
    Parses .leftHandSide (ts ++ us) d := by
  refine ⟨by simp [h.ne_nil], fun rest _ => ?_⟩
  have hp := h.resumes (us ++ rest) (hb rest)
  simp only [resume, operand?, isSome_none, Bool.false_eq_true, if_false, if_true]
    at hp ⊢
  rw [append_assoc, hp, hs]

lemma parses_member (h : Parses .leftHandSide ts e) (hs : isName s = true) :
    Parses .leftHandSide (ts ++ [.mark ".", .word s]) (.member e s) := by
  refine parses_suffix h (fun rest => stops_cons _ (b := 20) (by decide) (by decide)) ?_
  intro rest
  rw [cons_append, singleton_append, parseSuffixes]
  simp [hs]

lemma parses_index {p : Expr} (h : Parses .leftHandSide ts e) (hp : Parses .expression us p) :
    Parses .leftHandSide (ts ++ .mark "[" :: us ++ [.mark "]"]) (.index e p) := by
  rw [append_assoc]
  refine parses_suffix h (fun rest => stops_cons _ (b := 20) (by decide) (by decide)) ?_
  intro rest
  have hp := hp.advance rfl
    (stops_cons (t := .mark "]") rest (b := 0) (by decide) (by decide))
  rw [cons_append, cons_append, append_assoc, singleton_append,
    parseSuffixes.eq_def]
  simp [hp]

lemma parseItems_commas (trailing : Bool) (comma rest : List Token)
    (hc : comma = [] ∨ comma = [.mark ","] ∧ trailing = true)
    (hr : rest.head? = some (.mark ")") ∨ comma = [] ∧ stops 1 rest = true)
    (items : List (List Token × Expr)) (h : ∀ a ∈ items, Reads .assignment a.1 a.2)
    (hp : ∀ a ∈ items, Parses .assignment a.1 a.2) (hn : items ≠ []) :
    parseItems trailing (commas (items.map (·.1)) ++ comma ++ rest) =
      some (items.map (·.2), rest) := by
  have hclose : stops 1 rest = true := by
    rcases hr with hr | hr
    · obtain ⟨vs, rfl⟩ := head?_eq_some_iff.1 hr
      exact stops_cons vs (b := 0) (by decide) (by decide)
    · exact hr.2
  have hstop : rest.head? ≠ some (.mark ",") :=
    head?_ne_of_stops hclose (b := 1) (by decide) (by decide)
  induction items with
  | nil => exact absurd rfl hn
  | cons a items ih =>
    have ha := hp a (by simp)
    cases items with
    | nil =>
      have hsplit : commas ([a].map (·.1)) ++ comma ++ rest = a.1 ++ (comma ++ rest) := by
        simp [commas, intercalate]
      rw [hsplit]
      rcases hc with rfl | ⟨rfl, rfl⟩
      · rw [nil_append, parseItems, ha.advance rfl (stops_mono (by decide) hclose)]
        simp [hstop]
      · obtain ⟨vs, rfl⟩ := head?_eq_some_iff.1 (hr.resolve_right (by simp))
        rw [singleton_append, parseItems,
          ha.advance rfl (stops_cons _ (b := 1) (by decide) (by decide))]
        simp
    | cons b items =>
      have ih := ih (fun c hc => h c (by simp [hc])) (fun c hc => hp c (by simp [hc])) (by simp)
      have hb : ∃ t us, b.1 = t :: us ∧ starts 3 t = true := (h b (by simp)).head
      obtain ⟨t, us, hb, ht⟩ := hb
      obtain ⟨more, hmore⟩ := head_commas (items.map (·.1)) hb
      have hsplit : commas ((a :: b :: items).map (·.1)) ++ comma ++ rest =
          a.1 ++ .mark "," :: (commas ((b :: items).map (·.1)) ++ comma ++ rest) := by
        simp [commas, intercalate]
      have hnot : t ≠ .mark ")" := by
        rintro rfl
        revert ht
        decide
      rw [hsplit]
      rw [map_cons, hmore] at ih ⊢
      rw [parseItems, ha.advance rfl (stops_cons _ (b := 1) (by decide) (by decide))]
      simp [hnot] at ih ⊢
      simp [ih]

lemma parses_call {comma : List Token} {arguments : List (List Token × Expr)}
    (h : Parses .leftHandSide ts e) (ha : ∀ a ∈ arguments, Reads .assignment a.1 a.2)
    (hp : ∀ a ∈ arguments, Parses .assignment a.1 a.2)
    (hc : comma = [] ∨ comma = [.mark ","] ∧ arguments ≠ []) :
    Parses .leftHandSide (ts ++ .mark "(" :: commas (arguments.map (·.1)) ++ comma ++ [.mark ")"])
      (.call e (arguments.map (·.2))) := by
  rw [append_assoc, append_assoc]
  refine parses_suffix h (fun rest => stops_cons _ (b := 20) (by decide) (by decide)) ?_
  intro rest
  cases arguments with
  | nil =>
    obtain rfl := hc.resolve_right (by simp)
    rw [cons_append, parseSuffixes.eq_def]
    simp [commas, intercalate]
  | cons a arguments =>
    have hi := parseItems_commas true comma (.mark ")" :: rest)
      (by simpa using hc) (by simp) (a :: arguments) ha hp (by simp)
    obtain ⟨t, us, hb, ht⟩ := (ha a (by simp)).head
    obtain ⟨more, hmore⟩ := head_commas (arguments.map (·.1)) hb
    have hnot : t ≠ .mark ")" := by
      rintro rfl
      revert ht
      decide
    have hsplit : .mark "(" :: commas ((a :: arguments).map (·.1)) ++ (comma ++ [.mark ")"]) ++
        rest = .mark "(" :: t :: (more ++ comma ++ .mark ")" :: rest) := by
      simp [hmore]
    have hlt : (Token.mark ")" :: rest).length <
        (t :: (more ++ comma ++ .mark ")" :: rest)).length := by
      simp only [length_cons, length_append]
      omega
    rw [map_cons, hmore, cons_append, cons_append] at hi
    rw [hsplit, parseSuffixes.eq_def]
    generalize more ++ comma ++ Token.mark ")" :: rest = vs at hi hlt
    simp [hnot, hi, advance_some _ hlt]

lemma parses_postfixed {op : UpdateOp} (hr : Reads .leftHandSide ts e)
    (h : Parses .leftHandSide ts e) (he : e.isTarget = true) :
    Parses .update (ts ++ [symbol op.token]) (.update op false e) := by
  refine ⟨by simp, fun rest _ => ?_⟩
  have hp := h.close (symbol op.token :: rest) (stops_cons rest (binds?_update op) (by decide))
  obtain ⟨t, us, rfl, ht⟩ := hr.head
  have hu : t.update? = none := by
    simp [starts, rank] at ht
    exact ht.2
  rw [append_assoc, singleton_append, cons_append] at *
  rw [parse]
  simp [hu, hp, update?_symbol, he, resume, operand?]

lemma stops_unary (h : stops 18 ts = true) : stops 17 ts = true := by
  cases ts with
  | nil => rfl
  | cons t ts =>
    obtain ⟨b, hb, hlt⟩ := binds?_of_stops h head?_cons
    refine stops_cons ts hb ?_
    have hne : b ≠ 17 := by
      rintro rfl
      simp only [binds?] at hb
      iterate 6
        split at hb
        · simp at hb
      obtain ⟨op, -, hop⟩ := map_eq_some_iff.1 hb
      have := rank_levelOf_le op
      omega
    omega

lemma parses_prefixed {op : UpdateOp} (h : Parses .unary ts e) (he : e.isTarget = true) :
    Parses .update (symbol op.token :: ts) (.update op true e) := by
  refine ⟨by simp, fun rest hr => ?_⟩
  have hp := h.close _ (stops_unary hr)
  rw [cons_append, parse]
  simp [hp, update?_symbol, he, resume, operand?]

lemma parses_unary {op : PrefixOp} (h : Parses .unary ts e) :
    Parses .unary (symbol op.token :: ts) (.unary op e) := by
  refine ⟨by simp, fun rest hr => ?_⟩
  have hp := h.close _ hr
  rw [cons_append, parse]
  simp [hp, unary?_symbol, resume, operand?]

lemma parses_await (h : Parses .unary ts e) : Parses .unary (.word "await" :: ts) (.await e) := by
  refine ⟨by simp, fun rest hr => ?_⟩
  have hp := h.close _ hr
  have hu : (word "await").unary? = none := by decide
  rw [cons_append, parse]
  simp [hp, hu, resume, operand?]

lemma parses_power {l r : Expr} (hr : Reads .update ts l) (hl : Parses .update ts l)
    (h : Parses .exponentiation us r) :
    Parses .exponentiation (ts ++ symbol pow.token :: us) (.binary .pow l r) := by
  refine ⟨by simp, fun rest hs => ?_⟩
  have hp := hl.close (symbol pow.token :: (us ++ rest))
    (stops_cons _ (binds?_operator .pow) (by decide))
  have hlt := hl.length_lt (symbol pow.token :: (us ++ rest))
  have hq := h.close _ hs
  obtain ⟨t, vs, rfl, ht⟩ := hr.head
  obtain ⟨hu, ha⟩ : t.unary? = none ∧ t ≠ .word "await" := by
    simp [starts, rank] at ht
    exact ht.2
  rw [append_assoc, cons_append, cons_append] at *
  rw [parse]
  simp [hu, ha, hp, advance_some l hlt, hq, resume, operand?]

lemma parses_binary {op : BinaryOp} {m : Level} {l r : Expr} (hm : (levelOf op).operand? = some m)
    (hl : Parses (levelOf op) ts l) (h : Parses m us r) :
    Parses (levelOf op) (ts ++ symbol op.token :: us) (.binary op l r) := by
  refine ⟨by simp, fun rest hs => ?_⟩
  have hreach : reach (levelOf op) = (levelOf op).rank + 1 ∧ reach (levelOf op) ≤ bound m := by
    revert hm
    cases op <;> cases m <;> decide
  have hp := hl.resumes (symbol op.token :: (us ++ rest))
    (stops_cons _ (binds?_operator op) (by omega))
  have hq := h.advance rfl (stops_mono hreach.2 hs)
  simp only [resume, hm, isSome_some, if_true] at hp ⊢
  rw [append_assoc, cons_append, hp, parseOperands]
  simp [operator?_symbol, hm, hq]

lemma parses_conditional {vs : List Token} {c a b : Expr} (hc : Parses .shortCircuit ts c)
    (ha : Parses .assignment us a) (hb : Parses .assignment vs b) :
    Parses .conditional (ts ++ .mark "?" :: us ++ .mark ":" :: vs) (.conditional c a b) := by
  refine ⟨by simp, fun rest hs => ?_⟩
  have hsplit : ts ++ .mark "?" :: us ++ .mark ":" :: vs ++ rest =
      ts ++ .mark "?" :: (us ++ .mark ":" :: (vs ++ rest)) := by simp
  have hp := hc.advance hsplit (stops_cons _ (b := 4) (by decide) (by decide))
  have hq := ha.close (.mark ":" :: (vs ++ rest))
    (stops_cons _ (b := 0) (by decide) (by decide))
  have hlt : (Token.mark ":" :: (vs ++ rest)).length <
      (Token.mark "?" :: (us ++ .mark ":" :: (vs ++ rest))).length := by
    simp only [length_cons, length_append]
    omega
  rw [parse, hp]
  simp [hq, advance_some a hlt, hb.close _ hs, resume, operand?]

lemma parses_shortCircuit_target (hr : Reads .leftHandSide ts e) (h : Parses .leftHandSide ts e) :
    Reads .shortCircuit ts e ∧ Parses .shortCircuit ts e := by
  have up {l m : Level} (hm : m ∈ l.units) (h : Reads m ts e ∧ Parses m ts e) :
      Reads l ts e ∧ Parses l ts e := ⟨.unit hm h.1, parses_unit hm h.1 h.2⟩
  have hunary := up (l := .unary) (by decide) (up (l := .update) (by decide) ⟨hr, h⟩)
  have hshift := up (l := .shift) (by decide) (up (l := .additive) (by decide)
    (up (l := .multiplicative) (by decide) (up (l := .exponentiation) (by decide) hunary)))
  have hor := up (l := .bitOr) (by decide) (up (l := .bitXor) (by decide) (up (l := .bitAnd)
    (by decide) (up (l := .equality) (by decide) (up (l := .relational) (by decide) hshift))))
  exact up (m := .coalesce) (by decide) (up (by decide) hor)

lemma parses_assign {v : Expr} (hop : op.all isAssignable = true) (hr : Reads .leftHandSide ts e)
    (h : Parses .leftHandSide ts e) (he : e.isTarget = true) (hv : Parses .assignment us v) :
    Parses .assignment (ts ++ symbol (assignToken op) :: us) (.assign op e v) := by
  refine ⟨by simp, fun rest hs => ?_⟩
  have hlt := h.length_lt (symbol (assignToken op) :: (us ++ rest))
  have hp := (parses_shortCircuit_target hr h).2.advance rfl
    (stops_cons (us ++ rest) (binds?_assign hop) (by decide))
  have hcond : parse .conditional (ts ++ symbol (assignToken op) :: (us ++ rest)) =
      some (e, symbol (assignToken op) :: (us ++ rest)) := by
    have hne : symbol (assignToken op) ≠ .mark "?" := by
      intro hm
      have := binds?_assign hop
      rw [hm] at this
      revert this
      decide
    rw [parse, hp]
    simp [hne]
  obtain ⟨t, vs, rfl, ht⟩ := hr.head
  have hyield : t ≠ .word "yield" := by
    rintro rfl
    simp [starts, rank] at ht
  rw [append_assoc, cons_append, cons_append] at *
  rw [parse]
  simp [hyield, hcond, advance_some e hlt, assignment?_symbol hop, he, hv.close _ hs, resume,
    operand?]

lemma parses_pause : Parses .assignment [.word "yield"] .pause := by
  refine ⟨by simp, fun rest hs => ?_⟩
  have hstar : rest.head? ≠ some (.mark "*") :=
    head?_ne_of_stops hs (b := 15) (by decide) (by decide)
  have hs : stops 3 rest = true := hs
  rw [singleton_append, parse]
  simp [hstar, hs, resume, operand?]

lemma parses_yield (hr : Reads .assignment ts e) (h : Parses .assignment ts e) :
    Parses .assignment (.word "yield" :: ts) (.yield e) := by
  refine ⟨by simp, fun rest hs => ?_⟩
  have hp := h.close _ hs
  obtain ⟨t, us, rfl, ht⟩ := hr.head
  obtain ⟨hstop, hstar⟩ : stops 3 (t :: (us ++ rest)) = false ∧ t ≠ .mark "*" := by
    simp only [starts, Bool.and_eq_true] at ht
    exact ⟨by simpa [stops] using ht.1.1.1.1, by simpa using ht.1.1.1.2⟩
  rw [cons_append, cons_append] at *
  rw [parse]
  simp [hstar, hstop, hp, resume, operand?]

lemma parses_delegate (h : Parses .assignment ts e) :
    Parses .assignment (.word "yield" :: .mark "*" :: ts) (.delegate e) := by
  refine ⟨by simp, fun rest hs => ?_⟩
  have hp := h.close _ hs
  rw [cons_append, cons_append, parse]
  simp [hp, resume, operand?]

lemma parses_sequence {items : List (List Token × Expr)}
    (h : ∀ a ∈ items, Reads .assignment a.1 a.2) (hp : ∀ a ∈ items, Parses .assignment a.1 a.2)
    (hl : 2 ≤ items.length) :
    Parses .expression (commas (items.map (·.1))) (.sequence (items.map (·.2))) := by
  match items with
  | a :: b :: items =>
    have hne : commas ((a :: b :: items).map (·.1)) ≠ [] := by simp [commas, intercalate]
    refine ⟨hne, fun rest hs => ?_⟩
    have hi := parseItems_commas false [] rest (by simp)
      (.inr ⟨rfl, hs⟩) (b :: items) (fun c hc => h c (by simp [hc]))
      (fun c hc => hp c (by simp [hc])) (by simp)
    have hsplit : commas ((a :: b :: items).map (·.1)) ++ rest =
        a.1 ++ .mark "," :: (commas ((b :: items).map (·.1)) ++ rest) := by
      simp [commas, intercalate]
    rw [append_nil] at hi
    rw [hsplit, parse, (hp a (by simp)).advance rfl (stops_cons _ (b := 1) (by decide) (by decide))]
    simp at hi
    simp [hi, resume, operand?]

theorem Reads.parses {l : Level} (h : Reads l ts e) : Parses l ts e := by
  induction h with
  | unit hm hr ih => exact parses_unit hm hr ih
  | ident hs => exact parses_ident hs
  | number | text => exact ⟨by simp, fun rest _ => by rw [singleton_append, parse]; rfl⟩
  | @bool b => exact parses_bool b
  | null => exact parses_null
  | group _ ih => exact parses_group ih
  | member _ hs ih => exact parses_member ih hs
  | index _ _ ih ihp => exact parses_index ih ihp
  | call _ ha hc ih iha => exact parses_call ih ha iha hc
  | postfixed hr he ih => exact parses_postfixed hr ih he
  | prefixed _ he ih => exact parses_prefixed ih he
  | unary _ ih => exact parses_unary ih
  | await _ ih => exact parses_await ih
  | power hr _ ihl ihr => exact parses_power hr ihl ihr
  | binary hm _ _ ihl ihr => exact parses_binary hm ihl ihr
  | conditional _ _ _ ihc iha ihb => exact parses_conditional ihc iha ihb
  | assign hop hr he _ ih ihv => exact parses_assign hop hr ih he ihv
  | pause => exact parses_pause
  | yield hr ih => exact parses_yield hr ih
  | delegate _ ih => exact parses_delegate ih
  | sequence h hl ih => exact parses_sequence h ih hl

theorem parse_of_reads (h : Reads .expression ts e) : parse .expression ts = some (e, []) := by
  simpa using h.parses.close [] rfl

theorem Reads.unique {d : Expr} (h : Reads .expression ts e) (hd : Reads .expression ts d) :
    d = e := by
  have := (parse_of_reads hd).symm.trans (parse_of_reads h)
  simpa using this

end Overload.Syntax
