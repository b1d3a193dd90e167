import Overload.Proofs.Syntax.Opening

/-! The tokens that the text of an expression statement starts with. -/

namespace Overload.Syntax

open Source Text String List Except

variable {cs : List Char} {t : Tree} {n : Node} {k : Kind} {c : Char} {ps : List Part}

inductive Lead where
  | word (s : String)
  | other (c : Char)
  deriving DecidableEq, Repr

def opensComment (c : Char) : Bool := c == '/' || c == '*'

def lead? (cs : List Char) : Option (Lead × List Char) :=
  match cs.dropWhile isBlank with
  | [] => none
  | c :: rest =>
    if isNameStart c then
      some (.word (ofList (c :: rest.takeWhile isNamePart)), rest.dropWhile isNamePart)
    else if c = '/' ∧ rest.head?.any opensComment = true then none
    else some (.other c, rest)

/-- The text starts with a token, and neither as a block nor as a declaration does. -/
def StartsPlain (cs : List Char) : Prop :=
  ∃ first rest, lead? cs = some (first, rest) ∧
    first ∉ [.other brace, .word "function", .word "class"] ∧
    (first = .word "async" → ∃ second more, lead? rest = some (second, more) ∧
      second ≠ .word "function")

lemma lead?_word (hc : isNameStart c = true) (cs : List Char) :
    lead? (c :: cs) = some (.word (ofList (c :: cs.takeWhile isNamePart)),
      cs.dropWhile isNamePart) := by
  simp [lead?, isBlank_of_isNameStart hc, hc]

lemma lead?_other (hb : isBlank c = false) (hn : isNameStart c = false)
    (hc : c = '/' → cs.head?.any opensComment = false) : lead? (c :: cs) = some (.other c, cs) := by
  rw [lead?, dropWhile_cons_of_neg (by simp [hb])]
  simp only [hn]
  rw [if_neg (by simp), if_neg]
  rintro ⟨rfl, h⟩
  rw [hc rfl] at h
  cases h

def harmless : List Char → Bool
  | [] => false
  | c :: cs =>
    if isNameStart c then
      ["function", "class", "async"].all fun w =>
        !(c :: cs.takeWhile isNamePart).isPrefixOf w.toList
    else !(isBlank c || c == '/' || c == brace)

lemma takeWhile_prefix_append (p : Char → Bool) (cs ds : List Char) :
    cs.takeWhile p <+: (cs ++ ds).takeWhile p := by
  rw [takeWhile_append]
  split
  · rename_i h
    have hall := takeWhile_prefix p (l := cs)
    rw [hall.eq_of_length h]
    exact prefix_append _ _
  · exact prefix_rfl

lemma startsPlain_of_harmless (h : harmless cs = true) (ds : List Char) :
    StartsPlain (cs ++ ds) := by
  cases cs with
  | nil => simp [harmless] at h
  | cons c cs =>
    rw [harmless] at h
    split at h
    · rename_i hc
      have hword (w : String) (hw : w ∈ ["function", "class", "async"]) :
          ofList (c :: (cs ++ ds).takeWhile isNamePart) ≠ w := by
        rintro rfl
        have hnot := all_eq_true.1 h _ hw
        rw [Bool.not_eq_true', ← Bool.not_eq_true, isPrefixOf_iff_prefix,
          toList_ofList, prefix_cons_inj] at hnot
        exact hnot (takeWhile_prefix_append isNamePart cs ds)
      refine ⟨_, _, lead?_word hc _, ?_, fun h => ?_⟩
      · generalize ofList _ = word at hword
        simp [hword "function" (by decide), hword "class" (by decide)]
      · exact absurd (Lead.word.inj h) (hword "async" (by decide))
    · rename_i hc
      simp only [Bool.not_eq_true', Bool.or_eq_false_iff, beq_eq_false_iff_ne] at h
      obtain ⟨⟨hb, hslash⟩, hbrace⟩ := h
      refine ⟨_, _, lead?_other hb (by simpa using hc) fun h => absurd h hslash, ?_, by simp⟩
      simp [hbrace]

lemma startsPlain_of_texts {texts : List String} (h : StartsWith texts cs)
    (ht : ∀ s ∈ texts, harmless s.toList = true) (ds : List Char) : StartsPlain (cs ++ ds) := by
  obtain ⟨s, hs, rest, rfl⟩ := h
  rw [List.append_assoc]
  exact startsPlain_of_harmless (ht s hs) _

lemma startsPlain_async (ds : List Char) : StartsPlain ("async (".toList ++ ds) :=
  ⟨.word "async", ' ' :: '(' :: ds, rfl, by decide, fun _ => ⟨.other '(', ds, rfl, by decide⟩⟩

structure Follows (ds : List Char) : Prop where
  apart : ∀ c ∈ ds.head?, isNamePart c = false
  lead : ∃ t rest, lead? ds = some (t, rest) ∧ t ≠ .word "function"

def links (cs : List Char) : Bool :=
  cs.head?.any (!isNamePart ·) &&
    match cs.dropWhile isBlank with
    | [] => false
    | c :: rest =>
      if isNameStart c then
        !(rest.dropWhile isNamePart).isEmpty && c :: rest.takeWhile isNamePart != "function".toList
      else c != '/' || rest.head?.any (!opensComment ·)

lemma isBlank_of_dropWhile {rest : List Char} (h : cs.dropWhile isBlank = c :: rest) :
    isBlank c = false := by
  have := head?_dropWhile_not isBlank cs
  simpa [h] using this

lemma lead?_append {rest : List Char} (h : cs.dropWhile isBlank = c :: rest) (ds : List Char) :
    lead? (cs ++ ds) = lead? (c :: (rest ++ ds)) := by
  have hc := isBlank_of_dropWhile h
  rw [lead?, lead?, dropWhile_append, h, dropWhile_cons_of_neg (by simp [hc])]
  simp

lemma follows_of_links (h : links cs = true) (ds : List Char) : Follows (cs ++ ds) := by
  obtain ⟨hhead, h⟩ := (Bool.and_eq_true _ _).mp h
  refine ⟨fun c hc => ?_, ?_⟩
  · cases cs with
    | nil => simp at hhead
    | cons d cs =>
      obtain rfl : d = c := by simpa using hc
      simpa using hhead
  cases hcs : cs.dropWhile isBlank with
  | nil => simp [hcs] at h
  | cons c rest =>
    rw [lead?_append hcs]
    simp only [hcs] at h
    split at h
    · rename_i hc
      obtain ⟨hend, hword⟩ := (Bool.and_eq_true _ _).mp h
      have htake : (rest ++ ds).takeWhile isNamePart = rest.takeWhile isNamePart := by
        rw [takeWhile_append, if_neg]
        intro hlen
        have := congrArg List.length (List.takeWhile_append_dropWhile (p := isNamePart) (l := rest))
        rw [List.length_append, hlen, Nat.add_eq_left, List.length_eq_zero_iff] at this
        simp [this] at hend
      refine ⟨_, _, lead?_word hc _, fun hw => ?_⟩
      have hfunction := congrArg toList (Lead.word.inj hw)
      rw [htake, toList_ofList] at hfunction
      simp [hfunction] at hword
    · rename_i hc
      refine ⟨_, _, lead?_other (isBlank_of_dropWhile hcs) (by simpa using hc) ?_, by simp⟩
      rintro rfl
      cases rest with
      | nil => simp at h
      | cons d rest => simpa using h

def Sound (cs : List Char) : Prop := ∀ ds, Follows ds → StartsPlain (cs ++ ds)

lemma sound_name {s : String} (hname : isName s = true) (hs : s ∉ ["function", "class"]) :
    Sound s.toList := by
  intro ds hd
  have hword : lead? (s.toList ++ ds) = some (.word s, ds) := by
    unfold isName at hname
    split at hname
    · simp at hname
    · rename_i c cs he
      obtain ⟨hc, hcs⟩ := (Bool.and_eq_true _ _).mp hname
      obtain ⟨htake, hdrop⟩ := takeWhile_append_of_head hcs hd.apart
      rw [he, cons_append, lead?_word hc, htake, hdrop, ← he, ofList_toList]
  refine ⟨_, _, hword, ?_, fun _ => hd.lead⟩
  simpa using hs

def FitsSlash (regex : Tree) : Prop :=
  ∀ pattern, regex.entry "pattern" = .ok pattern →
    pattern.shown.toList.head?.any (!opensComment ·) = true

lemma startsPlain_literal {regex : Tree} (h : StartsLiteral regex cs) (hr : FitsSlash regex)
    (ds : List Char) : StartsPlain (cs ++ ds) := by
  rcases h with ⟨pattern, rest, hp, rfl⟩ | ⟨c, rest, rfl, hc⟩ | h
  · have hhead := hr pattern hp
    cases he : pattern.shown.toList with
    | nil => simp [he] at hhead
    | cons c cs =>
      refine ⟨_, _, lead?_other (c := '/') (by decide) (by decide) fun _ => ?_, by decide, by simp⟩
      simpa [he] using hhead
  · have hall : ∀ c ∈ numberStarts, harmless [c] = true := forall_of_all (by decide)
    have := startsPlain_of_harmless (hall c hc) (rest ++ ds)
    simpa using this
  · exact startsPlain_of_texts h (by decide) ds

/-- An expression, as far as its first operands go down to the very first: a name is no keyword,
operators are operators, and a template stands behind its tag. -/
inductive Spine : Tree → Prop
  | own {n : Node} {k : Kind} : n.kind = .str k.name → k ∈ ownKinds → Spine n.toTree
  | object {n : Node} {k : Kind} : n.kind = .str k.name →
      k ∈ [Kind.objectExpression, .objectPattern] → Spine n.toTree
  | arrayPattern {n : Node} : n.kind = .str Kind.arrayPattern.name → Spine n.toTree
  | identifier {t : Tree} {s : String} : OfKind .identifier (Field "name" (· = .str s)) t →
      isName s = true → s ∉ ["function", "class"] → Spine t
  | literal {n : Node} : n.kind = .str Kind.literal.name → FitsSlash (n.get "regex") →
      (n.get "bigint" = .null ∨ ∃ s, n.get "bigint" = .str s ∧ s.toList.all Char.isDigit = true) →
      Spine n.toTree
  | metaProperty {n : Node} {s : String} : n.kind = .str Kind.metaProperty.name →
      Field "meta" (OfKind .identifier (Field "name" (· = .str s))) n → s ∈ ["new", "import"] →
      Spine n.toTree
  | unary {n : Node} {op : PrefixOp} : n.kind = .str Kind.unaryExpression.name →
      n.get? "operator" = some (.str op.token) → Spine n.toTree
  | prefixed {n : Node} {op : UpdateOp} : n.kind = .str Kind.updateExpression.name →
      Field "prefix" (·.truthy = true) n → n.get? "operator" = some (.str op.token) →
      Spine n.toTree
  | postfixed {n : Node} {op : UpdateOp} {t : Tree} : n.kind = .str Kind.updateExpression.name →
      Field "prefix" (·.truthy = false) n → n.get? "operator" = some (.str op.token) →
      n.get? "argument" = some t → Spine t → Spine n.toTree
  | binary {n : Node} {k : Kind} {op : BinaryOp} {t : Tree} : n.kind = .str k.name →
      k ∈ [Kind.binaryExpression, .logicalExpression] →
      n.get? "operator" = some (.str op.token) → n.get? "left" = some t → Spine t →
      Spine n.toTree
  | assignment {n : Node} {op : Option BinaryOp} {t : Tree} :
      n.kind = .str Kind.assignmentExpression.name →
      n.get? "operator" = some (.str (assignToken op)) → n.get? "left" = some t → Spine t →
      Spine n.toTree
  | conditional {n : Node} {t : Tree} : n.kind = .str Kind.conditionalExpression.name →
      n.get? "test" = some t → Spine t → Spine n.toTree
  | sequence {n : Node} {t : Tree} {ts : List Tree} :
      n.kind = .str Kind.sequenceExpression.name →
      n.get? "expressions" = some (.list (t :: ts)) → Spine t → Spine n.toTree
  | call {n : Node} {t : Tree} : n.kind = .str Kind.callExpression.name →
      n.get? "callee" = some t → Spine t → Spine n.toTree
  | member {n : Node} {t : Tree} : n.kind = .str Kind.memberExpression.name →
      n.get? "object" = some t → Spine t → Spine n.toTree
  | tagged {n : Node} {t : Tree} : n.kind = .str Kind.taggedTemplateExpression.name →
      Field "quasi" (OfKind .templateLiteral fun _ => True) n → n.get? "tag" = some t →
      Spine t → Spine n.toTree
  | chain {n : Node} {t : Tree} : n.kind = .str Kind.chainExpression.name →
      n.get? "expression" = some t → Spine t → Spine n.toTree

def declaringKinds : List Kind :=
  [.objectExpression, .functionExpression, .classExpression, .objectPattern]

def Declares (t : Tree) : Prop :=
  ∃ m : Node, leftmost t = .ok m ∧ ∃ k ∈ declaringKinds, m.kind = .str k.name

def SoundStart (t : Tree) : Prop := ∀ cs, Renders [.tree t] cs → Sound cs ∨ Declares t

lemma soundStart_of_yields {P : List Char → Prop} (hk : n.kind = .str k.name)
    (h : Yields P (expandKind n k)) (hP : ∀ cs, P cs → ∀ ds, StartsPlain (cs ++ ds)) :
    SoundStart n.toTree := by
  intro cs hr
  obtain ⟨ps, he, hr⟩ := renders_expandKind hk hr
  exact .inl fun ds _ => hP cs (h ps cs he hr) ds

lemma soundStart_declaring (hk : n.kind = .str k.name) (hmem : k ∈ declaringKinds) :
    SoundStart n.toTree := by
  have hs : start n = .ok .here := by
    simp only [declaringKinds, mem_cons, not_mem_nil, or_false] at hmem
    rcases hmem with rfl | rfl | rfl | rfl <;> rw [start, kind?_of_kind hk]
  exact fun cs _ => .inr ⟨n, leftmost_of_here hs, k, hmem, hk⟩

lemma soundStart_own (hk : n.kind = .str k.name) (hmem : k ∈ ownKinds) : SoundStart n.toTree := by
  have hyields := yields_of_ownKinds n k hmem
  by_cases hd : k ∈ declaringKinds
  · exact soundStart_declaring hk hd
  · have hall : ∀ k ∈ ownKinds, k ∉ declaringKinds → ∀ s ∈ firstTexts k,
        s = "async (" ∨ harmless s.toList = true := by decide
    refine soundStart_of_yields hk hyields ?_
    rintro _ ⟨s, hs, rest, rfl⟩ ds
    rw [List.append_assoc]
    rcases hall k hmem hd s hs with rfl | h
    · exact startsPlain_async _
    · exact startsPlain_of_harmless h _

def Continues (ps : List Part) : Prop := ∀ bs ds, Renders ps bs → Follows ds → Follows (bs ++ ds)

lemma continues_nil : Continues [] := by
  rintro bs ds ⟨⟩ hd
  exact hd

lemma continues_text {s : String} (h : links s.toList = true) (ps : List Part) :
    Continues (.text s :: ps) := by
  intro bs ds hr _
  obtain ⟨cs, rfl, -⟩ := hr.of_text
  rw [List.append_assoc]
  exact follows_of_links h _

lemma continues_of_startsText {texts : List String} (h : StartsText texts ps)
    (ht : ∀ s ∈ texts, links s.toList = true) : Continues ps := by
  obtain ⟨s, hs, rest, rfl⟩ := h
  exact continues_text (ht s hs) rest

lemma soundStart_of_first {n : Node} {k : Kind} {t : Tree} (hk : n.kind = .str k.name)
    (hleft : leftmost n.toTree = leftmost t) (h : SoundStart t)
    (he : ∀ ps, expandKind n k = .ok ps → ∃ qs rest, ps = qs ++ rest ∧
      (qs = parenthesized t ∨ qs = [.tree t]) ∧ Continues rest) : SoundStart n.toTree := by
  intro cs hr
  obtain ⟨ps, hps, hr⟩ := renders_expandKind hk hr
  obtain ⟨qs, rest, rfl, hqs, hrest⟩ := he ps hps
  obtain ⟨as, bs, rfl, ha, hb⟩ := hr.exists_of_append
  rcases hqs with rfl | rfl
  · refine .inl fun ds _ => ?_
    obtain ⟨as, rfl, -⟩ := ha.of_text
    rw [List.append_assoc, List.append_assoc]
    exact startsPlain_of_harmless (by decide) _
  · rcases h as ha with hsound | ⟨m, hm, hkind⟩
    · refine .inl fun ds hd => ?_
      rw [List.append_assoc]
      exact hsound _ (hrest bs ds hb hd)
    · exact .inr ⟨m, by rw [hleft, hm], hkind⟩

lemma soundStart_of_led {name : String} {P : List Part → Prop} (hk : n.kind = .str k.name)
    (hs : start n = .ok (.field name)) (hn : name ≠ "type") (ht : n.get? name = some t)
    (h : SoundStart t) (he : Led t P (expandKind n k)) (hP : ∀ ps, P ps → Continues ps) :
    SoundStart n.toTree := by
  refine soundStart_of_first hk (leftmost_of_start hs hn ht) h fun ps hps => ?_
  obtain ⟨qs, rest, rfl, hg, hrest⟩ := he ps hps
  exact ⟨qs, rest, rfl, hg.imp_right And.left, hP rest hrest⟩

lemma operand_cases {least : Nat} (h : operand t least = .ok ps) :
    ps = parenthesized t ∨ ps = [.tree t] := by
  obtain ⟨p, -, h⟩ := except_bind_eq_ok.1 h
  split at h
  · exact .inl (ok.inj h).symm
  · exact .inr (ok.inj h).symm

lemma commaList_cons {ts : List Tree} (ht : t.isNull = false)
    (h : commaList (.list (t :: ts)) = .ok ps) : ∃ qs rest, ps = qs ++ rest ∧
      (qs = parenthesized t ∨ qs = [.tree t]) ∧ Continues rest := by
  obtain ⟨_, hxs, h⟩ := except_bind_eq_ok.1 h
  obtain rfl := ok.inj hxs
  obtain ⟨pss, hpss, h⟩ := except_bind_eq_ok.1 h
  obtain rfl := ok.inj h
  rw [mapM_cons] at hpss
  obtain ⟨qs, hqs, hpss⟩ := except_bind_eq_ok.1 hpss
  obtain ⟨qss, hqss, hpss⟩ := except_bind_eq_ok.1 hpss
  obtain rfl := ok.inj hpss
  rw [listItem, if_neg (by simp [ht])] at hqs
  cases qss with
  | nil =>
    refine ⟨qs, if lastIsHole (t :: ts) then [.text ","] else [], by simp, operand_cases hqs, ?_⟩
    split
    · exact continues_text (by decide) []
    · exact continues_nil
  | cons q qss =>
    exact ⟨qs, .text ", " :: ((q :: qss).intersperse [.text ", "]).flatten ++
      if lastIsHole (t :: ts) then [.text ","] else [], by simp, operand_cases hqs,
      continues_text (by decide) _⟩

lemma Spine.isNull (h : Spine t) : t.isNull = false := by
  cases h with
  | identifier ht =>
    obtain ⟨n, rfl, -⟩ := ht
    rfl
  | _ => rfl

theorem soundStart_of_spine (h : Spine t) : SoundStart t := by
  induction h with
  | own hk hmem => exact soundStart_own hk hmem
  | object hk hmem =>
    have hsub : [Kind.objectExpression, .objectPattern] ⊆ declaringKinds := by decide
    exact soundStart_declaring hk (hsub hmem)
  | arrayPattern hk =>
    exact soundStart_of_yields hk (yields_array _) fun _ h => startsPlain_of_texts h (by decide)
  | identifier ht hname hs =>
    intro cs hr
    obtain ⟨bs, rfl, ⟨⟩⟩ := renders_name ht hr
    rw [append_nil]
    exact .inl (sound_name hname hs)
  | literal hk hr hb =>
    exact soundStart_of_yields hk (yields_literal hb) fun _ h => startsPlain_literal h hr
  | @metaProperty n s hk hm hs =>
    intro cs hr
    obtain ⟨c, hc, hm⟩ := hm
    obtain ⟨ps, he, hr⟩ := renders_expandKind hk hr
    rw [expandKind, Source.metaProperty, attr_of_get? hc] at he
    obtain ⟨_, h, he⟩ := except_bind_eq_ok.1 he
    obtain rfl := ok.inj h
    obtain ⟨_, -, he⟩ := except_bind_eq_ok.1 he
    obtain rfl := ok.inj he
    obtain ⟨bs, rfl, -⟩ := renders_name hm hr
    refine .inl fun ds _ => ?_
    have hall : ∀ s ∈ ["new", "import"], harmless s.toList = true := by decide
    rw [List.append_assoc]
    exact startsPlain_of_harmless (hall s hs) _
  | @unary n op hk hop =>
    have hop' : ∀ s ∈ [op.token], harmless s.toList = true := by cases op <;> decide
    exact soundStart_of_yields hk (yields_unary hop) fun _ h => startsPlain_of_texts h hop'
  | @prefixed n op hk hp hop =>
    have hop' : ∀ s ∈ [op.token], harmless s.toList = true := by cases op <;> decide
    exact soundStart_of_yields hk (yields_prefixed hp hop) fun _ h => startsPlain_of_texts h hop'
  | @postfixed n op t hk hp hop ht _ ih =>
    have hlinks : links op.token.toList = true := by cases op <;> decide
    refine soundStart_of_led hk (start_of_postfixed hk hp) (by decide) ht ih (led_postfixed hp ht) ?_
    rintro _ ⟨_, h, rfl⟩ bs ds hr _
    rw [attr_of_get? hop] at h
    obtain rfl := ok.inj h
    obtain ⟨cs, rfl, -⟩ := hr.of_string
    rw [List.append_assoc]
    exact follows_of_links hlinks _
  | @binary n k op t hk hmem hop ht _ ih =>
    have he : expandKind n k = Source.binary n ∧ (k, "left") ∈ startFields := by
      simp only [mem_cons, not_mem_nil, or_false] at hmem
      rcases hmem with rfl | rfl <;> exact ⟨rfl, by decide⟩
    have hlinks : ∀ s ∈ [" " ++ op.token ++ " "], links s.toList = true := by cases op <;> decide
    exact soundStart_of_led hk (start_of_kind hk he.2) (by decide) ht ih (he.1 ▸ led_binary hop ht)
      fun _ h => continues_of_startsText h hlinks
  | @assignment n op t hk hop ht _ ih =>
    have hlinks : links (" " ++ assignToken op ++ " ").toList = true := by
      cases op with
      | none => decide
      | some op => cases op <;> decide
    have hleft := leftmost_of_start (start_of_kind hk (.head _)) (by decide) ht
    refine soundStart_of_first hk hleft ih fun ps hps => ?_
    obtain ⟨op', qs, hop', rfl⟩ := assignment_eq_ok ht hps
    rw [attr_of_get? hop] at hop'
    obtain rfl := ok.inj hop'
    exact ⟨[.tree t], _, rfl, .inr rfl, continues_text hlinks _⟩
  | conditional hk ht _ ih =>
    exact soundStart_of_led hk (start_of_kind hk (by decide)) (by decide) ht ih (led_conditional ht)
      fun _ h => continues_of_startsText h (by decide)
  | @sequence n t ts hk ht hs ih =>
    have hstart : start n = .ok (.first "expressions") := by rw [start, kind?_of_kind hk]
    refine soundStart_of_first hk (leftmost_of_first hstart (by decide) ht) ih fun ps hps => ?_
    rw [expandKind, Source.sequence, attr_of_get? ht] at hps
    exact commaList_cons hs.isNull hps
  | call hk ht _ ih =>
    exact soundStart_of_led hk (start_of_kind hk (by decide)) (by decide) ht ih (led_call ht)
      fun _ h => continues_of_startsText h (by decide)
  | member hk ht _ ih =>
    exact soundStart_of_led hk (start_of_kind hk (by decide)) (by decide) ht ih (led_member ht)
      fun _ h => continues_of_startsText h (by decide)
  | @tagged n t hk hq ht _ ih =>
    refine soundStart_of_led hk (start_of_kind hk (by decide)) (by decide) ht ih (led_tagged ht) ?_
    rintro _ ⟨_, h, rfl⟩ bs ds hr _
    obtain ⟨_, hq, m, rfl, hm, -⟩ := hq
    rw [attr_of_get? hq] at h
    obtain rfl := ok.inj h
    obtain ⟨ps, he, hr⟩ := renders_expandKind hm hr
    obtain ⟨s, hs, rest, rfl⟩ := yields_of_ownKinds m _ (by decide) ps bs he hr
    obtain rfl : s = "`" := by simpa [firstTexts] using hs
    rw [List.append_assoc]
    exact follows_of_links (by decide) _
  | chain hk ht _ ih =>
    have hleft := leftmost_of_start (start_of_kind hk (.tail _ (.head _))) (by decide) ht
    refine soundStart_of_first hk hleft ih fun ps hps => ?_
    rw [expandKind, attr_of_get? ht] at hps
    obtain rfl := ok.inj hps
    exact ⟨[.tree _], [], rfl, .inr rfl, continues_nil⟩

lemma expressionStatement_eq_ok (ht : n.get? "expression" = some t)
    (h : expressionStatement n = .ok ps) :
    ps = [.text "(", .tree t, .text ");"] ∨ ps = [.tree t, .text ";"] ∧ ¬ Declares t := by
  rw [expressionStatement, attr_of_get? ht] at h
  obtain ⟨_, he, h⟩ := except_bind_eq_ok.1 h
  obtain rfl := ok.inj he
  obtain ⟨m, hm, h⟩ := except_bind_eq_ok.1 h
  obtain ⟨b, hb, h⟩ := except_bind_eq_ok.1 h
  split at h
  · exact .inl (ok.inj h).symm
  · rename_i hplain
    refine .inr ⟨(ok.inj h).symm, ?_⟩
    rintro ⟨m', hm', k, hk, hkind⟩
    rw [hm] at hm'
    obtain rfl := ok.inj hm'
    apply hplain
    rw [Bool.or_eq_true]
    simp only [declaringKinds, mem_cons, not_mem_nil, or_false] at hk
    rw [hkind] at hb
    rcases hk with rfl | rfl | rfl | rfl
    · exact .inl (ok.inj hb).symm
    · exact .inl (ok.inj hb).symm
    · exact .inl (ok.inj hb).symm
    · exact .inr (Node.is_iff.2 hkind)

theorem expression_statement_starts_plain {n : Node} {t : Tree} {text : String}
    (hk : n.kind = .str Kind.expressionStatement.name) (ht : n.get? "expression" = some t)
    (h : Spine t) (hp : print n.toTree = .ok text) : StartsPlain text.toList := by
  obtain ⟨cs, hr, htext⟩ := renders_of_run hp
  obtain ⟨ps, he, hr⟩ := renders_expandKind hk hr
  rw [htext]
  rcases expressionStatement_eq_ok ht he with rfl | ⟨rfl, hplain⟩
  · obtain ⟨bs, rfl, -⟩ := hr.of_text
    exact startsPlain_of_harmless (by decide) bs
  · obtain ⟨as, bs, rfl, ha, hb⟩ := hr.exists_of_cons
    obtain ⟨bs, rfl, -⟩ := hb.of_text
    have hsound := (soundStart_of_spine h as ha).resolve_right hplain
    exact hsound _ (follows_of_links (by decide) bs)

def lateFunction : Tree :=
  .node 0 (.str "SequenceExpression") [("expressions", .list
    [.node 0 (.str "AssignmentExpression") [("operator", .str "="), ("left", named "async"),
       ("right", .node 0 (.str "FunctionExpression") [("params", .list []),
         ("body", .node 0 (.str "BlockStatement") [("body", .list [])])])],
     .node 0 (.str "ClassExpression")
       [("body", .node 0 (.str "ClassBody") [("body", .list [])])]])]

lemma spine_lateFunction : Spine lateFunction := by
  have hname : Spine (named "async") :=
    .identifier ⟨⟨_, _, _⟩, rfl, rfl, _, rfl, rfl⟩ (by decide) (by decide)
  exact .sequence (n := ⟨_, _, _⟩) rfl rfl
    (@Spine.assignment ⟨_, _, _⟩ none _ rfl rfl rfl hname)

def statementOf (t : Tree) : Node := ⟨0, .str "ExpressionStatement", [("expression", t)]⟩

theorem expression_statement_starts_plain_late_function :
    Spine lateFunction ∧
      print (statementOf lateFunction).toTree =
        .ok "async = function() \x7b\n\x7d, class \x7b\n\x7d;" ∧
      StartsPlain "async = function() \x7b\n\x7d, class \x7b\n\x7d;".toList :=
  ⟨spine_lateFunction, rfl, expression_statement_starts_plain (n := statementOf lateFunction) rfl
    rfl spine_lateFunction rfl⟩

end Overload.Syntax
