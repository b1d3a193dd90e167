import Overload.Proofs.Syntax.Heads

/-! The clauses that stand before the body of a statement: loops, `with` and labels. -/

namespace Overload.Syntax

open List

variable {ts us rest' ls rs : List Token} {t u : Token} {d r : Expr}

variable {e : Expr} {rest : List Token} {w : Token → Int}

def Token.opens : Token → Bool
  | .word s => isIdentifier s ||
    ["true", "false", "null", "typeof", "void", "delete", "await", "yield"].contains s
  | .mark m => ["(", "+", "-", "!", "~", "++", "--"].contains m
  | _ => true

lemma Reads.opens {l : Level} (h : Reads l ts e) : ∃ t rest, ts = t :: rest ∧ t.opens = true := by
  induction h with
  | unit _ _ ih => exact ih
  | ident hs => exact ⟨_, _, rfl, by simp [Token.opens, hs]⟩
  | number | text => exact ⟨_, _, rfl, rfl⟩
  | @bool b => exact ⟨_, _, rfl, by cases b <;> decide⟩
  | null | group | await | pause | yield | delegate => exact ⟨_, _, rfl, by decide⟩
  | member _ _ ih | index _ _ ih _ | call _ _ _ ih _ | postfixed _ _ ih | power _ _ ih _
  | conditional _ _ _ ih _ _ | assign _ _ _ _ ih _ | binary _ _ _ ih _ =>
    obtain ⟨t, rest, rfl, ht⟩ := ih
    exact ⟨t, _, rfl, ht⟩
  | @prefixed op | @unary op => exact ⟨_, _, rfl, by cases op <;> decide⟩
  | @sequence items _ hl ih =>
    cases items with
    | nil => simp at hl
    | cons a items =>
      obtain ⟨t, rest, hts, ht⟩ := ih a (by simp)
      obtain ⟨more, hmore⟩ := head_commas (items.map (·.1)) hts
      exact ⟨t, more, hmore, ht⟩

lemma Reads.ne_nil {l : Level} (h : Reads l ts e) : ts ≠ [] := by
  obtain ⟨t, rest, rfl, -⟩ := h.opens
  simp

lemma Reads.not_start {l : Level} (h : Reads l ts e) (ht : t.opens = false)
    (more rest : List Token) : ts ++ more ≠ t :: rest := by
  obtain ⟨u, us, rfl, hu⟩ := h.opens
  intro he
  obtain ⟨rfl, -⟩ := cons.inj he
  rw [ht] at hu
  cases hu

def Token.isIdent : Token → Bool
  | .word s => isIdentifier s
  | _ => false

lemma isIdent_binary (op : BinaryOp) : (symbol op.token).isIdent = false := by
  cases op <;> decide

lemma isIdent_assign {op : Option BinaryOp} (h : op.all isAssignable = true) :
    (symbol (assignToken op)).isIdent = false := by
  cases op with
  | none => decide
  | some op =>
    revert h
    cases op <;> decide

def StartsWithNames : List Token → Prop
  | t :: u :: _ => t.isIdent = true ∧ u.isIdent = true
  | _ => False

lemma not_startsWithNames_cons (ht : t.isIdent = false) (ts : List Token) :
    ¬ StartsWithNames (t :: ts) := by
  cases ts with
  | nil => exact id
  | cons u ts => simp [StartsWithNames, ht]

lemma StartsWithNames.of_append (hts : ts ≠ []) (ht : t.isIdent = false)
    (h : StartsWithNames (ts ++ t :: rest)) : StartsWithNames ts := by
  match ts, hts with
  | [x], _ => simp [StartsWithNames, ht] at h
  | x :: y :: us, _ => exact h

theorem Reads.not_startsWithNames {l : Level} (h : Reads l ts e) : ¬ StartsWithNames ts := by
  induction h with
  | unit _ _ ih => exact ih
  | ident | number | text | bool | null | pause => exact id
  | group | await | yield | delegate => exact not_startsWithNames_cons (by decide) _
  | @prefixed op | @unary op => exact not_startsWithNames_cons (by cases op <;> decide) _
  | member hr _ ih => exact fun h => ih (h.of_append hr.ne_nil rfl)
  | index hr _ ih _ | conditional hr _ _ ih _ _ =>
    rw [append_assoc]
    exact fun h => ih (h.of_append hr.ne_nil rfl)
  | call hr _ _ ih _ =>
    rw [append_assoc, append_assoc]
    exact fun h => ih (h.of_append hr.ne_nil rfl)
  | @postfixed op _ _ hr _ ih =>
    exact fun h => ih (h.of_append hr.ne_nil (by cases op <;> decide))
  | power hr _ ih _ | binary _ hr _ ih _ =>
    exact fun h => ih (h.of_append hr.ne_nil (isIdent_binary _))
  | assign hop hr _ _ ih _ => exact fun h => ih (h.of_append hr.ne_nil (isIdent_assign hop))
  | @sequence items hr hl ih =>
    match items, hl with
    | a :: b :: items, _ =>
      have hsplit : commas ((a :: b :: items).map (·.1)) =
          a.1 ++ .mark "," :: commas ((b :: items).map (·.1)) := by
        simp [commas, intercalate]
      rw [hsplit]
      exact fun h => ih a (by simp) (h.of_append (hr a (by simp)).ne_nil rfl)

def clauses : Token → Int
  | .mark m =>
    if ["(", "[", "\x7b", "?"].contains m then 1
    else if [")", "]", "\x7d", ":", ";"].contains m then -1
    else 0
  | _ => 0

lemma fair_clauses : Fair clauses := by
  refine ⟨by decide, by decide, by decide, fun t ht => ?_⟩
  cases t with
  | mark m =>
    have hm : m ∉ structural := by simpa [Token.isPlain] using ht
    simp only [structural, mem_cons, not_mem_nil, or_false, not_or] at hm
    simp [clauses, hm]
  | _ => rfl

lemma Balanced.height_pos {vs : List Token} {v : Token} (h : Balanced w ts) (ht : 0 < w t)
    (he : t :: ts ++ [u] = us ++ v :: vs) (hne : us ≠ []) : 0 < height w us := by
  cases us with
  | nil => exact absurd rfl hne
  | cons x us =>
    obtain ⟨rfl, hsplit⟩ : t = x ∧ ts ++ [u] = us ++ v :: vs := by simpa using he
    obtain ⟨more, rfl⟩ : ∃ more, ts = us ++ more := by
      rcases append_eq_append_iff.1 hsplit with ⟨as, rfl, ha⟩ | ⟨bs, rfl, -⟩
      · obtain ⟨rfl, -⟩ : as = [] ∧ u = v ∧ [] = vs := by
          cases as with
          | nil => simpa using ha
          | cons a as => simp at ha
        exact ⟨[], by simp⟩
      · exact ⟨bs, rfl⟩
    have := h.nonneg us more rfl
    rw [height_cons]
    omega

def linking : List Token := [.mark ".", .mark "[", .mark "("]

lemma linking_of_enclosed {vs xs : List Token} {x : Token} (hts : Balanced clauses ts)
    (hxs : Balanced clauses xs) (hx : 0 < clauses x) (hlink : x ∈ linking)
    (hus : Balanced clauses us) (he : ts ++ (x :: xs ++ [u]) = us ++ t :: vs)
    (ih : ∀ ws, ts = us ++ t :: ws → t ∈ linking) : t ∈ linking := by
  rcases append_eq_append_iff.1 he with ⟨as, rfl, ha⟩ | ⟨bs, rfl, hb⟩
  · cases as with
    | nil =>
      obtain ⟨rfl, -⟩ := List.cons.inj ha
      exact hlink
    | cons a as =>
      have hpos := hxs.height_pos hx ha (by simp)
      have hsum := hus.total
      rw [height_append, hts.total] at hsum
      omega
  · cases bs with
    | nil =>
      obtain ⟨rfl, -⟩ := List.cons.inj hb
      exact hlink
    | cons b bs =>
      obtain ⟨rfl, -⟩ := List.cons.inj hb
      exact ih bs rfl

theorem Reads.linking_of_append {l : Level} (h : Reads l ts e) :
    l = .leftHandSide ∨ l = .primary → ∀ us t vs, ts = us ++ t :: vs → us ≠ [] →
      Balanced clauses us → Pointless us → t ∈ linking := by
  have hsingle {x t : Token} {us vs : List Token} (he : [x] = us ++ t :: vs) : us = [] := by
    cases us with
    | nil => rfl
    | cons u us => simp at he
  induction h with
  | @unit l m _ _ hm _ ih =>
    rintro (rfl | rfl)
    · obtain rfl : m = .primary := by simpa [Level.units] using hm
      exact ih (.inr rfl)
    · simp [Level.units] at hm
  | ident | number | text | bool | null => exact fun _ us t vs he hne => absurd (hsingle he) hne
  | group hr _ =>
    intro _ us t vs he hne hus _
    have := (hr.balanced fair_clauses).height_pos (by decide) he hne
    rw [hus.total] at this
    omega
  | @member ts e s hr _ ih =>
    intro _ us t vs he hne hus hpoint
    rcases append_eq_append_iff.1 he with ⟨as, rfl, ha⟩ | ⟨bs, rfl, hb⟩
    · rcases as with _ | ⟨x, _ | ⟨y, as⟩⟩
      · obtain ⟨rfl, -⟩ := List.cons.inj ha
        decide
      · obtain ⟨rfl, -⟩ := List.cons.inj ha
        exact absurd (by simp) hpoint
      · simp at ha
    · cases bs with
      | nil =>
        obtain ⟨rfl, -⟩ := List.cons.inj hb
        decide
      | cons b bs =>
        obtain ⟨rfl, -⟩ := List.cons.inj hb
        exact ih (.inl rfl) us t bs rfl hne hus hpoint
  | index hr hp ih _ =>
    intro _ us t vs he hne hus hpoint
    rw [append_assoc] at he
    exact linking_of_enclosed (hr.balanced fair_clauses) (hp.balanced fair_clauses) (by decide)
      (by decide) hus he fun ws hws => ih (.inl rfl) us t ws hws hne hus hpoint
  | @call ts e arguments comma hr ha hc ih _ =>
    intro _ us t vs he hne hus hpoint
    have hcomma : Balanced clauses comma := by
      rcases hc with rfl | ⟨rfl, -⟩
      · exact .nil
      · exact .single rfl
    have hargs : Balanced clauses (commas (arguments.map (·.1))) := by
      refine fair_clauses.commas fun p hp => ?_
      obtain ⟨a, hmem, rfl⟩ := mem_map.1 hp
      exact (ha a hmem).balanced fair_clauses
    refine linking_of_enclosed (hr.balanced fair_clauses) (hargs.append hcomma) (by decide)
      (by decide) hus (x := .mark "(") (u := .mark ")") (by simpa using he)
      fun ws hws => ih (.inl rfl) us t ws hws hne hus hpoint
  | @binary op =>
    intro hl
    have := rank_levelOf_le op
    rcases hl with hl | hl <;> simp [hl, Level.rank] at this
  | _ => simp

theorem Reads.objects_alike (h : Reads .leftHandSide ts e) (h' : Reads .leftHandSide us d)
    (ht : t ∉ linking) (hu : u ∉ linking) (he : ts ++ t :: rest = us ++ u :: rest') : ts = us := by
  rcases append_eq_append_iff.1 he with ⟨as, rfl, ha⟩ | ⟨bs, rfl, hb⟩
  · cases as with
    | nil => simp
    | cons a as =>
      obtain ⟨rfl, -⟩ := List.cons.inj ha
      exact absurd (h'.linking_of_append (.inl rfl) ts t as rfl h.ne_nil
        (h.balanced fair_clauses) h.pointless) ht
  · cases bs with
    | nil => simp
    | cons b bs =>
      obtain ⟨rfl, -⟩ := List.cons.inj hb
      exact absurd (h.linking_of_append (.inl rfl) us u bs rfl h'.ne_nil
        (h'.balanced fair_clauses) h'.pointless) hu

lemma Reads.unique_of_climbs {l : Level} (h : Reads l ts e) (h' : Reads l ts d)
    (hl : climbs 20 l .expression = true) : e = d :=
  (h'.climb hl).unique (h.climb hl)

namespace Init

inductive ReadsDeclarator : List Token → String × Option Expr → Prop
  | bare {s : String} : isIdentifier s = true → ReadsDeclarator [.word s] (s, none)
  | valued {s : String} {ts : List Token} {e : Expr} : isIdentifier s = true →
      Syntax.Reads .assignment ts e → ReadsDeclarator (.word s :: .mark "=" :: ts) (s, some e)

inductive Reads : List Token → Init → Prop
  | expression {ts : List Token} {e : Expr} : Syntax.Reads .expression ts e →
      Reads ts (.expression e)
  | declaration {kind : String} {items : List (List Token × String × Option Expr)} :
      kind ∈ ["var", "let", "const"] → items ≠ [] → (∀ a ∈ items, ReadsDeclarator a.1 a.2) →
      Reads (.word kind :: commas (items.map (·.1))) (.declaration kind (items.map (·.2)))

-- Without the keyword the declarators are an expression, so that its reading decides about theirs.

def declaratorExpr : String × Option Expr → Expr
  | (s, none) => .ident s
  | (s, some e) => .assign none (.ident s) e

def declaredExpr : List (String × Option Expr) → Expr
  | [d] => declaratorExpr d
  | ds => .sequence (ds.map declaratorExpr)

lemma declaratorExpr_injective {d d' : String × Option Expr}
    (h : declaratorExpr d = declaratorExpr d') : d = d' := by
  obtain ⟨s, v⟩ := d
  obtain ⟨s', v'⟩ := d'
  cases v <;> cases v' <;> simp_all [declaratorExpr]

lemma declaratorExpr_ne_sequence (d : String × Option Expr) (es : List Expr) :
    declaratorExpr d ≠ .sequence es := by
  obtain ⟨s, v⟩ := d
  cases v <;> simp [declaratorExpr]

lemma declaredExpr_injective {ds ds' : List (String × Option Expr)} (hds : ds ≠ [])
    (hds' : ds' ≠ []) (h : declaredExpr ds = declaredExpr ds') : ds = ds' := by
  match ds, ds', hds, hds' with
  | [d], [d'], _, _ => rw [declaratorExpr_injective h]
  | [d], _ :: _ :: _, _, _ => exact absurd h (declaratorExpr_ne_sequence d _)
  | _ :: _ :: _, [d'], _, _ => exact absurd h.symm (declaratorExpr_ne_sequence d' _)
  | _ :: _ :: _, _ :: _ :: _, _, _ =>
    rw [declaredExpr, declaredExpr, Expr.sequence.injEq] at h
    · exact map_injective_iff.2 (fun _ _ => declaratorExpr_injective) h
    all_goals simp

lemma ReadsDeclarator.reads {d : String × Option Expr} (h : ReadsDeclarator ts d) :
    Syntax.Reads .assignment ts (declaratorExpr d) := by
  cases h with
  | bare hs => exact (Reads.ident hs).climb (k := 20) (by decide)
  | @valued s ts e hs hr =>
    have htarget : Syntax.Reads .leftHandSide [.word s] (.ident s) :=
      .unit (by decide) (.ident hs)
    have hplain : (none : Option BinaryOp).all isAssignable = true := rfl
    exact .assign hplain htarget rfl hr

lemma reads_declaredExpr {items : List (List Token × String × Option Expr)} (hne : items ≠ [])
    (h : ∀ a ∈ items, ReadsDeclarator a.1 a.2) :
    Syntax.Reads .expression (commas (items.map (·.1))) (declaredExpr (items.map (·.2))) := by
  match items, hne with
  | [a], _ =>
    have := (h a (by simp)).reads
    simpa [commas, intercalate, declaredExpr] using Syntax.Reads.unit (by decide) this
  | a :: b :: items, _ =>
    have hitems : ∀ c ∈ (a :: b :: items).map fun a => (a.1, declaratorExpr a.2),
        Syntax.Reads .assignment c.1 c.2 := by
      rw [forall_mem_map]
      exact fun c hc => (h c hc).reads
    simpa [declaredExpr, Function.comp_def] using Syntax.Reads.sequence hitems (by simp)

lemma opens_kind {kind : String} (h : kind ∈ ["var", "let", "const"]) :
    kind = "let" ∨ (Token.word kind).opens = false := by
  revert kind
  decide

lemma not_reads_declaration {l : Level} {kind : String} (hk : kind ∈ ["var", "let", "const"])
    (ht : t.isIdent = true) (h : Syntax.Reads l ts e) : ts ≠ .word kind :: t :: us := by
  rintro rfl
  rcases opens_kind hk with rfl | ho
  · exact h.not_startsWithNames ⟨by decide, ht⟩
  · exact h.not_start ho [] _ (append_nil _)

lemma ReadsDeclarator.head {d : String × Option Expr} (h : ReadsDeclarator ts d) :
    ∃ t us, ts = t :: us ∧ t.isIdent = true := by
  cases h with
  | bare hs | valued hs => exact ⟨_, _, rfl, hs⟩

lemma head_declarators {items : List (List Token × String × Option Expr)} (hne : items ≠ [])
    (h : ∀ a ∈ items, ReadsDeclarator a.1 a.2) :
    ∃ t us, commas (items.map (·.1)) = t :: us ∧ t.isIdent = true := by
  cases items with
  | nil => exact absurd rfl hne
  | cons a items =>
    obtain ⟨t, us, hts, ht⟩ := (h a (by simp)).head
    obtain ⟨vs, hvs⟩ := head_commas (items.map (·.1)) hts
    exact ⟨t, vs, hvs, ht⟩

theorem Reads.unique {i j : Init} (h : Reads ts i) (h' : Reads ts j) : i = j := by
  cases h with
  | expression hr =>
    generalize hts : ts = us at h'
    cases h' with
    | expression hr' =>
      rw [← hts] at hr'
      rw [hr'.unique hr]
    | declaration hk hne hitems =>
      obtain ⟨t, vs, hvs, ht⟩ := head_declarators hne hitems
      exact absurd (hts.trans (by rw [hvs])) (not_reads_declaration hk ht hr)
  | @declaration kind items hk hne hitems =>
    generalize hts : Token.word kind :: commas (items.map (·.1)) = us at h'
    cases h' with
    | expression hr' =>
      obtain ⟨t, vs, hvs, ht⟩ := head_declarators hne hitems
      exact absurd (hts.symm.trans (by rw [hvs])) (not_reads_declaration hk ht hr')
    | declaration hk' hne' hitems' =>
      obtain ⟨hkind, hcommas⟩ := cons.inj hts
      have hr := reads_declaredExpr hne hitems
      have hr' := reads_declaredExpr hne' hitems'
      rw [hcommas] at hr
      have := declaredExpr_injective (by simpa using hne) (by simpa using hne') (hr'.unique hr)
      rw [this, Token.word.inj hkind]

inductive ReadsLeft (word : String) : List Token → Init → Prop
  | target {ts : List Token} {e : Expr} : Syntax.Reads .leftHandSide ts e → e.isTarget = true →
      (word = "of" → ts.head? ≠ some (.word "let")) → ReadsLeft word ts (.expression e)
  | declaration {kind s : String} : kind ∈ ["var", "let", "const"] → isIdentifier s = true →
      ReadsLeft word [.word kind, .word s] (.declaration kind [(s, none)])

lemma not_target_declaration {word word' kind s : String} (hw : word ∈ ["in", "of"])
    (hr : Syntax.Reads .leftHandSide ts e) (hlet : word = "of" → ts.head? ≠ some (.word "let"))
    (hk : kind ∈ ["var", "let", "const"]) (hs : isIdentifier s = true) :
    ts ++ .word word :: rest ≠ .word kind :: .word s :: .word word' :: rest' := by
  intro he
  match ts, hr.ne_nil with
  | [x], _ =>
    obtain ⟨rfl, rfl, -⟩ : x = .word kind ∧ word = s ∧ rest = .word word' :: rest' := by
      simpa using he
    rcases opens_kind hk with rfl | ho
    · have hof : word ≠ "in" := by
        rintro rfl
        exact absurd hs (by decide)
      exact hlet (by simpa [hof] using hw) rfl
    · exact hr.not_start ho [] _ (append_nil _)
  | x :: y :: us, _ =>
    obtain ⟨rfl, rfl, -⟩ : x = .word kind ∧ y = .word s ∧
        us ++ .word word :: rest = .word word' :: rest' := by simpa using he
    exact not_reads_declaration (t := .word s) hk hs hr rfl

theorem ReadsLeft.alike {word word' : String} {i j : Init} (hw : word ∈ ["in", "of"])
    (hw' : word' ∈ ["in", "of"]) (h : ReadsLeft word ts i) (h' : ReadsLeft word' us j)
    (he : ts ++ .word word :: rest = us ++ .word word' :: rest') :
    i = j ∧ word = word' ∧ rest = rest' := by
  have hword (s : String) : Token.word s ∉ linking := by simp [linking]
  cases h with
  | target hr _ hlet =>
    cases h' with
    | target hr' =>
      obtain rfl := hr.objects_alike hr' (hword word) (hword word') he
      rw [hr.unique_of_climbs hr' (by decide)]
      simpa using he
    | declaration hk hs => exact absurd he (not_target_declaration hw hr hlet hk hs)
  | declaration hk hs =>
    cases h' with
    | target hr' _ hlet => exact absurd he.symm (not_target_declaration hw' hr' hlet hk hs)
    | declaration hk' hs' =>
      obtain ⟨rfl, rfl, rfl, rfl⟩ := by simpa using he
      simp

lemma Reads.balanced (hw : Fair w) {i : Init} (h : Reads ts i) : Balanced w ts := by
  cases h with
  | expression hr => exact hr.balanced hw
  | declaration _ hne hitems => exact hw.cons rfl ((reads_declaredExpr hne hitems).balanced hw)

lemma ReadsLeft.balanced (hw : Fair w) {word : String} {i : Init} (h : ReadsLeft word ts i) :
    Balanced w ts := by
  cases h with
  | target hr => exact hr.balanced hw
  | declaration => exact hw.cons rfl (hw.single rfl)

lemma Reads.ne_nil {i : Init} (h : Reads ts i) : ts ≠ [] := by
  cases h with
  | expression hr => exact hr.ne_nil
  | declaration => simp

end Init

section Slot

variable {α : Type} {R : List Token → α → Prop} {a b : Option α}

def Slot (R : List Token → α → Prop) (ts : List Token) : Option α → Prop
  | none => ts = []
  | some a => R ts a

lemma Slot.balanced (hR : ∀ ts a, R ts a → Balanced w ts) (h : Slot R ts a) : Balanced w ts := by
  cases a with
  | none =>
    obtain rfl := h
    exact .nil
  | some a => exact hR ts a h

lemma Slot.unique (hR : ∀ ts a b, R ts a → R ts b → a = b) (hne : ∀ ts a, R ts a → ts ≠ [])
    (h : Slot R ts a) (h' : Slot R ts b) : a = b := by
  cases a with
  | none =>
    obtain rfl := h
    cases b with
    | none => rfl
    | some b => exact absurd rfl (hne [] b h')
  | some a =>
    cases b with
    | none => exact absurd h' (hne ts a h)
    | some b => rw [hR ts a b h h']

end Slot

inductive Each where
  | names | values | awaited
  deriving DecidableEq, Repr

namespace Each

def word : Each → String
  | .names => "in"
  | .values | .awaited => "of"

def isAwait : Each → Bool
  | .awaited => true
  | _ => false

def level : Each → Level
  | .names => .expression
  | .values | .awaited => .assignment

lemma word_mem (each : Each) : each.word ∈ ["in", "of"] := by
  cases each <;> decide

end Each

inductive Clause where
  | whileTest (test : Expr)
  | forSteps (init : Option Init) (test update : Option Expr)
  | forEach (each : Each) (left : Init) (right : Expr)
  | withObject (object : Expr)
  | label (name : String)

namespace Clause

inductive Reads : List Token → Clause → Prop
  | whileTest {ts : List Token} {c : Expr} : Syntax.Reads .expression ts c →
      Reads (.word "while" :: .mark "(" :: ts ++ [.mark ")"]) (.whileTest c)
  | forSteps {is cs us : List Token} {i : Option Init} {c u : Option Expr} :
      Slot Init.Reads is i → Slot (Syntax.Reads .expression) cs c →
      Slot (Syntax.Reads .expression) us u →
      Reads (.word "for" :: .mark "(" :: is ++ .mark ";" :: cs ++ .mark ";" :: us ++ [.mark ")"])
        (.forSteps i c u)
  | forEach {each : Each} {ls rs : List Token} {l : Init} {r : Expr} :
      Init.ReadsLeft each.word ls l → Syntax.Reads each.level rs r →
      Reads (.word "for" :: (if each.isAwait then [.word "await"] else []) ++
        .mark "(" :: ls ++ .word each.word :: rs ++ [.mark ")"]) (.forEach each l r)
  | withObject {ts : List Token} {e : Expr} : Syntax.Reads .expression ts e →
      Reads (.word "with" :: .mark "(" :: ts ++ [.mark ")"]) (.withObject e)
  | label {s : String} : isIdentifier s = true → Reads [.word s, .mark ":"] (.label s)

section Alike

variable {i j : List Token}

lemma expressions_alike (h : Syntax.Reads .expression ts e) (h' : Syntax.Reads .expression us d)
    (ht : clauses t < 0) (hu : clauses u < 0) (he : ts ++ t :: i = us ++ u :: j) :
    e = d ∧ t = u ∧ i = j := by
  obtain ⟨rfl, htu, hij⟩ :=
    (h.balanced fair_clauses).ends_alike (h'.balanced fair_clauses) ht hu he
  exact ⟨h'.unique h, htu, hij⟩

lemma slots_alike {a b : Option Expr} (h : Slot (Syntax.Reads .expression) ts a)
    (h' : Slot (Syntax.Reads .expression) us b) (ht : clauses t < 0)
    (he : ts ++ t :: i = us ++ t :: j) : a = b ∧ i = j := by
  have hb := h.balanced fun _ _ hr => hr.balanced fair_clauses
  have hb' := h'.balanced fun _ _ hr => hr.balanced fair_clauses
  obtain ⟨rfl, -, hij⟩ := hb.ends_alike hb' ht ht he
  exact ⟨h.unique (fun _ _ _ hr hr' => hr'.unique hr) (fun _ _ hr => hr.ne_nil) h', hij⟩

lemma inits_alike {a b : Option Init} (h : Slot Init.Reads ts a) (h' : Slot Init.Reads us b)
    (ht : clauses t < 0) (he : ts ++ t :: i = us ++ t :: j) : a = b ∧ i = j := by
  have hb := h.balanced fun _ _ hr => hr.balanced fair_clauses
  have hb' := h'.balanced fun _ _ hr => hr.balanced fair_clauses
  obtain ⟨rfl, -, hij⟩ := hb.ends_alike hb' ht ht he
  exact ⟨h.unique (fun _ _ _ hr hr' => hr.unique hr') (fun _ _ hr => hr.ne_nil) h', hij⟩

lemma balanced_each {each : Each} {l : Init} (hl : Init.ReadsLeft each.word ls l)
    (hr : Syntax.Reads each.level rs r) : Balanced clauses (ls ++ .word each.word :: rs) :=
  (hl.balanced fair_clauses).append (fair_clauses.cons rfl (hr.balanced fair_clauses))

lemma not_steps_each {each : Each} {is : List Token} {a : Option Init} {l : Init}
    (h : Slot Init.Reads is a) (hl : Init.ReadsLeft each.word ls l)
    (hr : Syntax.Reads each.level rs r) :
    is ++ .mark ";" :: i ≠ ls ++ .word each.word :: (rs ++ .mark ")" :: j) := by
  intro he
  have hb := h.balanced fun _ _ hr => hr.balanced fair_clauses
  rw [← cons_append, ← append_assoc] at he
  have := (hb.ends_alike (balanced_each hl hr) (by decide) (by decide) he).2.1
  simp at this

lemma eachs_alike {each each' : Each} {ls rs ls' rs' : List Token} {l l' : Init} {r r' : Expr}
    (hl : Init.ReadsLeft each.word ls l) (hr : Syntax.Reads each.level rs r)
    (hl' : Init.ReadsLeft each'.word ls' l') (hr' : Syntax.Reads each'.level rs' r')
    (hawait : each.isAwait = each'.isAwait)
    (he : ls ++ .word each.word :: (rs ++ .mark ")" :: i) =
      ls' ++ .word each'.word :: (rs' ++ .mark ")" :: j)) :
    each = each' ∧ l = l' ∧ r = r' ∧ i = j := by
  rw [← cons_append, ← append_assoc, ← cons_append, ← append_assoc] at he
  obtain ⟨hsame, -, hij⟩ :=
    (balanced_each hl hr).ends_alike (balanced_each hl' hr') (by decide) (by decide) he
  obtain ⟨rfl, hword, rfl⟩ := hl.alike each.word_mem each'.word_mem hl' hsame
  obtain rfl : each = each' := by
    revert hword hawait
    cases each <;> cases each' <;> decide
  exact ⟨rfl, rfl, hr.unique_of_climbs hr' (by cases each <;> decide), hij⟩

end Alike

theorem Reads.alike {i j : List Token} {k k' : Clause} (h : Reads ts k) (h' : Reads us k')
    (he : ts ++ i = us ++ j) : k = k' ∧ i = j := by
  cases h with
  | whileTest hr =>
    cases h' with
    | whileTest hr' =>
      obtain ⟨rfl, -, rfl⟩ := expressions_alike (t := .mark ")") (u := .mark ")") hr hr' (by decide)
        (by decide) (by simpa using he)
      exact ⟨rfl, rfl⟩
    | _ => simp at he
  | withObject hr =>
    cases h' with
    | withObject hr' =>
      obtain ⟨rfl, -, rfl⟩ := expressions_alike (t := .mark ")") (u := .mark ")") hr hr' (by decide)
        (by decide) (by simpa using he)
      exact ⟨rfl, rfl⟩
    | _ => simp at he
  | forSteps hi hc hu =>
    cases h' with
    | forSteps hi' hc' hu' =>
      obtain ⟨rfl, htest⟩ := inits_alike (t := .mark ";") hi hi' (by decide) (by simpa using he)
      obtain ⟨rfl, hupdate⟩ := slots_alike hc hc' (by decide) htest
      obtain ⟨rfl, rfl⟩ := slots_alike hu hu' (by decide) hupdate
      exact ⟨rfl, rfl⟩
    | @forEach each _ _ _ _ hl hr =>
      cases hawait : each.isAwait with
      | true => simp [hawait] at he
      | false =>
        simp only [hawait] at he
        exact absurd (by simpa using he) (not_steps_each hi hl hr)
    | _ => simp at he
  | @forEach each _ _ _ _ hl hr =>
    cases h' with
    | forSteps hi' hc' hu' =>
      cases hawait : each.isAwait with
      | true => simp [hawait] at he
      | false =>
        simp only [hawait] at he
        exact absurd (by simpa using he.symm) (not_steps_each hi' hl hr)
    | @forEach each' _ _ _ _ hl' hr' =>
      have hawait : each.isAwait = each'.isAwait := by
        cases h : each.isAwait <;> cases h' : each'.isAwait <;> simp [h, h'] at he ⊢
      rw [hawait] at he
      obtain ⟨rfl, rfl, rfl, rfl⟩ := eachs_alike hl hr hl' hr' hawait (by simpa using he)
      exact ⟨rfl, rfl⟩
    | label hs =>
      obtain ⟨rfl, -⟩ : "for" = _ ∧ _ := by simpa using he
      exact absurd hs (by decide)
    | _ => simp at he
  | label hs =>
    cases h' with
    | label hs' => simpa using he
    | @forEach each =>
      obtain ⟨rfl, -⟩ : _ = "for" ∧ _ := by simpa using he
      exact absurd hs (by decide)
    | _ => simp at he

end Clause

end Overload.Syntax
