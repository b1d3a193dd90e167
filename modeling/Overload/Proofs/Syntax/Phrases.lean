import Overload.Proofs.Syntax.Access

/-!
The grammar of what can stand on the left side of an assignment: member, call, optional and `new`
expressions.
-/

namespace Overload.Syntax.Access

open List

variable {ts : List Token} {o : Bool}

inductive Phrase where
  | memberExpression | callExpression | optionalExpression | newExpression | leftHandSide
  deriving DecidableEq, Repr

def Phrase.extended : Phrase → Bool → Bool → Option Phrase
  | .memberExpression, false, false => some .memberExpression
  | .memberExpression, false, true | .callExpression, false, _ => some .callExpression
  | .memberExpression, true, _ | .callExpression, true, _ | .optionalExpression, _, _ =>
    some .optionalExpression
  | _, _, _ => none

def question (o : Bool) : List Token := if o then [.mark "?."] else []

inductive Lists : List (List Token) → List Token → Prop
  | plain (items : List (List Token)) :
      Lists items (Token.mark "(" :: commas items ++ [Token.mark ")"])
  | trailing (items : List (List Token)) : items ≠ [] →
      Lists items (Token.mark "(" :: commas items ++ [Token.mark ",", .mark ")"])

inductive Reads : Phrase → List Token → Access → Prop
  | ident {s : String} : isIdentifier s = true → Reads .memberExpression [.word s] (.ident s)
  | group {ts : List Token} {e : Access} : Reads .leftHandSide ts e →
      Reads .memberExpression (Token.mark "(" :: ts ++ [Token.mark ")"]) e
  | name {l m : Phrase} {o : Bool} {ts : List Token} {e : Access} {s : String} :
      l.extended o false = some m → Reads l ts e → isName s = true →
      Reads m (ts ++ [Token.mark (if o then "?." else "."), .word s]) (.link o e (.name s))
  | property {l m : Phrase} {o : Bool} {ts us : List Token} {e p : Access} :
      l.extended o false = some m → Reads l ts e → Reads .leftHandSide us p →
      Reads m (ts ++ question o ++ Token.mark "[" :: us ++ [Token.mark "]"])
        (.link o e (.property p))
  | arguments {l m : Phrase} {o : Bool} {ts us : List Token} {e : Access}
      {items : List (List Token × Access)} :
      l.extended o true = some m → Reads l ts e → (∀ a ∈ items, Reads .leftHandSide a.1 a.2) →
      Lists (items.map (·.1)) us →
      Reads m (ts ++ question o ++ us) (.link o e (.arguments (items.map (·.2))))
  | new {ts us : List Token} {e : Access} {items : List (List Token × Access)} :
      Reads .memberExpression ts e → (∀ a ∈ items, Reads .leftHandSide a.1 a.2) →
      Lists (items.map (·.1)) us →
      Reads .memberExpression (.word "new" :: ts ++ us) (.new e (items.map (·.2)))
  | bare {ts : List Token} {e : Access} : Reads .newExpression ts e →
      Reads .newExpression (.word "new" :: ts) (.new e [])
  | member {ts : List Token} {e : Access} : Reads .memberExpression ts e →
      Reads .newExpression ts e
  | unlinked {ts : List Token} {e : Access} : Reads .newExpression ts e →
      Reads .leftHandSide ts e
  | called {ts : List Token} {e : Access} : Reads .callExpression ts e → Reads .leftHandSide ts e
  | chain {ts : List Token} {e : Access} : Reads .optionalExpression ts e →
      Reads .leftHandSide ts (.chain e)

inductive Head where
  | name (s : String)
  | bracket
  | paren

def opens (isNew : Bool) : List Token → Option (Bool × Head × List Token)
  | .mark "." :: .word s :: ts => some (false, .name s, ts)
  | .mark "[" :: ts => some (false, .bracket, ts)
  | .mark "(" :: ts => if isNew then none else some (false, .paren, ts)
  | .mark "?." :: .word s :: ts => if isNew then none else some (true, .name s, ts)
  | .mark "?." :: .mark "[" :: ts => if isNew then none else some (true, .bracket, ts)
  | .mark "?." :: .mark "(" :: ts => if isNew then none else some (true, .paren, ts)
  | _ => none

lemma opens_of_opens (h : opens false ts = none) (b : Bool) : opens b ts = none := by
  cases b with
  | false => exact h
  | true =>
    unfold opens at h ⊢
    split at h <;> simp_all

inductive Task where
  | start (isNew : Bool)
  | links (isNew isOptional : Bool) (e : Access)
  | items

inductive Takes : Task → List Token → List Access → List Token → Prop
  | ident {b : Bool} {s : String} {ts rest : List Token} {out : List Access} :
      isIdentifier s = true → Takes (.links b false (.ident s)) ts out rest →
      Takes (.start b) (.word s :: ts) out rest
  | group {b : Bool} {ts us rest : List Token} {e : Access} {out : List Access} :
      Takes (.start false) ts [e] (.mark ")" :: us) → Takes (.links b false e) us out rest →
      Takes (.start b) (.mark "(" :: ts) out rest
  | new {b : Bool} {ts us vs rest : List Token} {e : Access} {as out : List Access} :
      Takes (.start true) ts [e] (.mark "(" :: us) → Takes .items us as vs →
      Takes (.links b false (.new e as)) vs out rest →
      Takes (.start b) (.word "new" :: ts) out rest
  | bare {b : Bool} {ts rest : List Token} {e : Access} :
      Takes (.start true) ts [e] rest → rest.head? ≠ some (.mark "(") →
      Takes (.start b) (.word "new" :: ts) [.new e []] rest
  | stop {b o : Bool} {ts : List Token} {e : Access} : opens b ts = none →
      Takes (.links b o e) ts [if o then .chain e else e] ts
  | name {b o p : Bool} {ts us rest : List Token} {e : Access} {s : String} {out : List Access} :
      opens b ts = some (p, .name s, us) →
      Takes (.links b (o || p) (.link p e (.name s))) us out rest →
      Takes (.links b o e) ts out rest
  | property {b o p : Bool} {ts us vs rest : List Token} {e d : Access} {out : List Access} :
      opens b ts = some (p, .bracket, us) → Takes (.start false) us [d] (.mark "]" :: vs) →
      Takes (.links b (o || p) (.link p e (.property d))) vs out rest →
      Takes (.links b o e) ts out rest
  | arguments {b o p : Bool} {ts us vs rest : List Token} {e : Access} {as out : List Access} :
      opens b ts = some (p, .paren, us) → Takes .items us as vs →
      Takes (.links b (o || p) (.link p e (.arguments as))) vs out rest →
      Takes (.links b o e) ts out rest
  | closed {ts : List Token} : Takes .items (.mark ")" :: ts) [] ts
  | last {ts us : List Token} {a : Access} : Takes (.start false) ts [a] (.mark ")" :: us) →
      Takes .items ts [a] us
  | more {ts us vs : List Token} {a : Access} {as : List Access} :
      Takes (.start false) ts [a] (.mark "," :: us) → Takes .items us as vs →
      Takes .items ts (a :: as) vs

lemma not_takes_closing {b : Bool} {rest : List Token} {out : List Access} :
    ¬ Takes (.start b) (.mark ")" :: ts) out rest := by
  intro h
  generalize hts : Token.mark ")" :: ts = us at h
  cases h <;> simp at hts

theorem Takes.unique {task : Task} {rest rest' : List Token} {out out' : List Access}
    (h : Takes task ts out rest) (h' : Takes task ts out' rest') : out = out' ∧ rest = rest' := by
  induction h generalizing out' rest' with
  | ident hs _ ih =>
    cases h' with
    | ident _ h => exact ih h
    | new | bare => exact absurd hs (by decide)
  | group _ _ ih ihl =>
    cases h' with
    | group h hl =>
      obtain ⟨⟨⟩, ⟨⟩⟩ := ih h
      exact ihl hl
  | new _ _ _ ih ihs ihl =>
    cases h' with
    | ident hs => exact absurd hs (by decide)
    | new h hs hl =>
      obtain ⟨⟨⟩, ⟨⟩⟩ := ih h
      obtain ⟨rfl, rfl⟩ := ihs hs
      exact ihl hl
    | bare h hne =>
      obtain ⟨-, rfl⟩ := ih h
      exact absurd rfl hne
  | bare _ hne ih =>
    cases h' with
    | ident hs => exact absurd hs (by decide)
    | new h =>
      obtain ⟨-, rfl⟩ := ih h
      exact absurd rfl hne
    | bare h =>
      obtain ⟨⟨⟩, rfl⟩ := ih h
      exact ⟨rfl, rfl⟩
  | stop hn =>
    cases h' with
    | stop => exact ⟨rfl, rfl⟩
    | name ho | property ho | arguments ho => simp [hn] at ho
  | name ho _ ih =>
    cases h' with
    | stop hn => simp [ho] at hn
    | name ho' h =>
      obtain ⟨rfl, ⟨⟩, rfl⟩ := by simpa [ho] using ho'
      exact ih h
    | property ho' | arguments ho' => simp [ho] at ho'
  | property ho _ _ ih ihl =>
    cases h' with
    | stop hn => simp [ho] at hn
    | property ho' h hl =>
      obtain ⟨rfl, rfl⟩ := by simpa [ho] using ho'
      obtain ⟨⟨⟩, ⟨⟩⟩ := ih h
      exact ihl hl
    | name ho' | arguments ho' => simp [ho] at ho'
  | arguments ho _ _ ih ihl =>
    cases h' with
    | stop hn => simp [ho] at hn
    | arguments ho' h hl =>
      obtain ⟨rfl, rfl⟩ := by simpa [ho] using ho'
      obtain ⟨rfl, rfl⟩ := ih h
      exact ihl hl
    | name ho' | property ho' => simp [ho] at ho'
  | closed =>
    cases h' with
    | closed => exact ⟨rfl, rfl⟩
    | last h | more h => exact absurd h not_takes_closing
  | last h ih =>
    cases h' with
    | closed => exact absurd h not_takes_closing
    | last h =>
      obtain ⟨⟨⟩, ⟨⟩⟩ := ih h
      exact ⟨rfl, rfl⟩
    | more h =>
      have := (ih h).2
      simp at this
  | more h _ ih ihs =>
    cases h' with
    | closed => exact absurd h not_takes_closing
    | last h =>
      have := (ih h).2
      simp at this
    | more h hs =>
      obtain ⟨⟨⟩, ⟨⟩⟩ := ih h
      obtain ⟨rfl, rfl⟩ := ihs hs
      exact ⟨rfl, rfl⟩

def Continues (l : Phrase) (ts : List Token) (e : Access) : Prop :=
  ∀ b rest out rest', (b = true → l = .memberExpression) →
    Takes (.links b (l == .optionalExpression) e) rest out rest' →
    Takes (.start b) (ts ++ rest) out rest'

def Taken : Phrase → List Token → Access → Prop
  | .newExpression, ts, e => ∀ b rest, opens false rest = none →
    Takes (.start b) (ts ++ rest) [e] rest
  | .leftHandSide, ts, e => ∀ rest, opens false rest = none →
    Takes (.start false) (ts ++ rest) [e] rest
  | l, ts, e => Continues l ts e

lemma opens_name {b : Bool} (h : b = true → o = false) (s : String) (ts : List Token) :
    opens b (.mark (if o then "?." else ".") :: .word s :: ts) = some (o, .name s, ts) := by
  cases b <;> cases o <;> first | rfl | simp at h

lemma opens_bracket {b : Bool} (h : b = true → o = false) (ts : List Token) :
    opens b (question o ++ .mark "[" :: ts) = some (o, .bracket, ts) := by
  cases b <;> cases o <;> first | rfl | simp at h

lemma opens_paren (o : Bool) (ts : List Token) :
    opens false (question o ++ .mark "(" :: ts) = some (o, .paren, ts) := by
  cases o <;> rfl

lemma extended_some {l m : Phrase} {c : Bool} (h : l.extended o c = some m) :
    (m = .memberExpression → l = .memberExpression ∧ o = false ∧ c = false) ∧
      (l == .optionalExpression || o) = (m == .optionalExpression) ∧ Taken l = Continues l ∧
      Taken m = Continues m := by
  cases l <;> cases o <;> cases c <;> cases h <;> exact ⟨by decide, rfl, rfl, rfl⟩

lemma taken_link {l m : Phrase} {o c : Bool} {ts us : List Token} {e d : Access}
    (hl : l.extended o c = some m) (ht : Taken l ts e)
    (h : ∀ b rest out rest', (b = true → o = false ∧ c = false) →
      Takes (.links b (l == .optionalExpression || o) d) rest out rest' →
      Takes (.links b (l == .optionalExpression) e) (us ++ rest) out rest') :
    Taken m (ts ++ us) d := by
  obtain ⟨hmember, hoptional, hl, hm⟩ := extended_some hl
  rw [hl] at ht
  rw [hm]
  intro b rest out rest' hb hrest
  rw [append_assoc]
  refine ht b _ out rest' (fun hb' => (hmember (hb hb')).1)
    (h b rest out rest' (fun hb' => (hmember (hb hb')).2) ?_)
  rwa [hoptional]

lemma takes_items {items : List (List Token × Access)} {ending : List Token}
    (hi : ∀ a ∈ items, Taken .leftHandSide a.1 a.2)
    (he : ending = [.mark ")"] ∨ ending = [.mark ",", .mark ")"] ∧ items ≠ [])
    (rest : List Token) :
    Takes .items (commas (items.map (·.1)) ++ ending ++ rest) (items.map (·.2)) rest := by
  induction items with
  | nil =>
    obtain rfl : ending = [.mark ")"] := by simpa using he
    exact .closed
  | cons a items ih =>
    have ha := hi a (by simp)
    cases items with
    | nil =>
      rcases he with rfl | ⟨rfl, -⟩
      · simpa [commas, intercalate] using Takes.last (ha (.mark ")" :: rest) rfl)
      · simpa [commas, intercalate] using
          Takes.more (ha (.mark "," :: .mark ")" :: rest) rfl) .closed
    | cons b items =>
      have hrest := ih (fun c hc => hi c (by simp [hc])) (he.imp_right fun h => ⟨h.1, by simp⟩)
      have := Takes.more (ha (.mark "," :: _) rfl) hrest
      simpa [commas, intercalate] using this

lemma takes_lists {items : List (List Token × Access)} {us : List Token}
    (hi : ∀ a ∈ items, Taken .leftHandSide a.1 a.2) (h : Lists (items.map (·.1)) us) :
    ∃ vs, us = .mark "(" :: vs ∧ ∀ rest, Takes .items (vs ++ rest) (items.map (·.2)) rest := by
  cases h with
  | plain => exact ⟨_, rfl, takes_items hi (.inl rfl)⟩
  | trailing hne => exact ⟨_, rfl, takes_items hi (.inr ⟨rfl, by simpa using hne⟩)⟩

theorem taken_of_reads {l : Phrase} {e : Access} (h : Reads l ts e) : Taken l ts e := by
  induction h with
  | ident hs => exact fun b rest out rest' _ h => .ident hs h
  | group _ ih =>
    intro b rest out rest' _ h
    have := Takes.group (ih (.mark ")" :: rest) rfl) h
    simpa using this
  | name hl _ _ ih =>
    refine taken_link hl ih fun b rest out rest' hb h => ?_
    exact .name (opens_name (fun hb' => (hb hb').1) _ rest) h
  | property hl _ _ ih ihp =>
    rw [append_assoc, append_assoc]
    refine taken_link hl ih fun b rest out rest' hb h => ?_
    have := Takes.property (opens_bracket (fun hb' => (hb hb').1) _)
      (ihp (.mark "]" :: rest) rfl) h
    simpa using this
  | arguments hl _ _ hu ih ihs =>
    obtain ⟨vs, rfl, hvs⟩ := takes_lists ihs hu
    rw [append_assoc]
    refine taken_link hl ih fun b rest out rest' hb h => ?_
    obtain rfl : b = false := by simpa using hb
    have := Takes.arguments (opens_paren _ _) (hvs rest) h
    simpa using this
  | new _ _ hu ih ihs =>
    obtain ⟨vs, rfl, hvs⟩ := takes_lists ihs hu
    intro b rest out rest' _ h
    have hcallee := ih true (.mark "(" :: (vs ++ rest)) _ _ (fun _ => rfl) (.stop rfl)
    have := Takes.new hcallee (hvs rest) h
    simpa using this
  | bare _ ih =>
    intro b rest hr
    refine .bare (ih true rest hr) fun hp => ?_
    obtain ⟨us, rfl⟩ : ∃ us, rest = .mark "(" :: us := by
      cases rest <;> simp_all
    simp [opens] at hr
  | member _ ih =>
    exact fun b rest hr => ih b rest _ _ (fun _ => rfl) (.stop (opens_of_opens hr b))
  | unlinked _ ih => exact fun rest hr => ih false rest hr
  | called _ ih | chain _ ih => exact fun rest hr => ih false rest _ _ (by simp) (.stop hr)

theorem Reads.unique {e d : Access} (h : Reads .leftHandSide ts e) (h' : Reads .leftHandSide ts d) :
    e = d := by
  have := (taken_of_reads h [] rfl).unique (taken_of_reads h' [] rfl)
  simpa using this.1

def phrase (e : Access) : Phrase :=
  if e.hasOptional then .optionalExpression
  else if e.hasCall then .callExpression
  else .memberExpression

lemma extended_phrase (o : Bool) (e : Access) (l : Link Access) :
    e.phrase.extended o l.isCall = some (phrase (.link o e l)) := by
  rw [phrase, phrase, hasOptional, hasCall]
  cases o <;> cases l.isCall <;> cases e.hasOptional <;> cases e.hasCall <;> rfl

lemma reads_of_phrase {e : Access} (ho : e.hasOptional = false) (h : Reads e.phrase ts e) :
    Reads .leftHandSide ts e := by
  rw [phrase, ho] at h
  cases hc : e.hasCall with
  | true =>
    rw [hc] at h
    exact .called h
  | false =>
    rw [hc] at h
    exact .unlinked (.member h)

def ReadsOperands (f : Access → Access) (l : Link Access) : Prop :=
  (∀ s, l = .name s → isName s = true) ∧
    ∀ x ∈ l.operands, Reads .leftHandSide (tokens (pieces x)) (f x)

def readItems (f : Access → Access) (as : List Access) : List (List Token × Access) :=
  as.map fun a => (tokens (pieces a), f a)

lemma lists_readItems (f : Access → Access) (as : List Access) :
    Lists ((readItems f as).map (·.1)) (tokens (enclosed (separated (listed as)))) := by
  have := Lists.plain ((readItems f as).map (·.1))
  simpa [enclosed, tokens_separated, listed_eq_map, readItems, Function.comp_def] using this

lemma map_snd_readItems (f : Access → Access) (as : List Access) :
    (readItems f as).map (·.2) = as.map f := by
  simp [readItems]

lemma reads_readItems {f : Access → Access} {as : List Access}
    (h : ∀ a ∈ as, Reads .leftHandSide (tokens (pieces a)) (f a)) :
    ∀ a ∈ readItems f as, Reads .leftHandSide a.1 a.2 := by
  intro a ha
  obtain ⟨x, hx, rfl⟩ := mem_map.1 ha
  exact h x hx

lemma tokens_questioned (o : Bool) : tokens (questioned o) = question o := by
  cases o <;> rfl

theorem Reads.link {f : Access → Access} {l : Link Access} {q m : Phrase} {e : Access}
    (hl : ReadsOperands f l) (hq : q.extended o l.isCall = some m) (h : Reads q ts e) :
    Reads m (ts ++ tokens (linkPieces o l)) (.link o e (l.map f)) := by
  cases l with
  | name s => exact .name hq h (hl.1 s rfl)
  | property p =>
    have := Reads.property hq h (hl.2 p (by simp [Link.operands]))
    simpa [linkPieces, tokens_questioned, Link.map] using this
  | arguments as =>
    have := Reads.arguments hq h (reads_readItems hl.2) (lists_readItems f as)
    rw [map_snd_readItems] at this
    simpa [linkPieces, tokens_questioned, Link.map, Link.operands] using this

theorem Reads.construct {f : Access → Access} {as : List Access} {e : Access}
    (has : ∀ a ∈ as, Reads .leftHandSide (tokens (pieces a)) (f a))
    (h : Reads .memberExpression ts e) :
    Reads .memberExpression (.word "new" :: ts ++ tokens (enclosed (separated (listed as))))
      (.new e (as.map f)) := by
  have := Reads.new h (reads_readItems has) (lists_readItems f as)
  rwa [map_snd_readItems] at this

end Overload.Syntax.Access
