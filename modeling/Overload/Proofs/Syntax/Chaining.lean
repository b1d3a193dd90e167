import Overload.Proofs.Syntax.Phrases

/-! Optional links and chains without `new`. -/

namespace Overload.Syntax.Access

open Access Source

def isNewless : Access → Bool
  | .new _ _ => false
  | _ => true

def isChain : Access → Bool
  | .chain _ => true
  | _ => false

def close (e : Access) : Access := if e.hasOptional then .chain e else e

mutual

def unchained : Access → Access
  | .ident s => .ident s
  | .link o e l => .link o (unchained e) (rechainLink l)
  | .new e as => .new e as
  | .chain e => unchained e
termination_by structural e => e

def rechainLink : Link Access → Link Access
  | .name s => .name s
  | .property p => .property (close (unchained p))
  | .arguments as => .arguments (rechainAll as)
termination_by structural l => l

def rechainAll : List Access → List Access
  | [] => []
  | a :: as => close (unchained a) :: rechainAll as
termination_by structural as => as

end

/-- How an expression is read once it is written: one chain from the head to the last link. -/
def rechain (e : Access) : Access := close (unchained e)

lemma rechainAll_eq_map (as : List Access) : rechainAll as = as.map rechain := by
  induction as with
  | nil => rfl
  | cons a as ih => rw [rechainAll, ih, List.map_cons, rechain]

lemma rechainLink_eq_map (l : Link Access) : rechainLink l = l.map rechain := by
  cases l <;> simp [rechainLink, Link.map, rechainAll_eq_map, rechain]

def isFit : Access → Bool
  | .link _ _ l => l.operands.all fun x => !x.hasOptional
  | .chain e => e.hasOptional
  | _ => true

def isClosed (e : Access) : Bool := !e.hasOptional && e.every isFit

def isSettled : Access → Bool
  | .link _ e _ => !e.isChain
  | _ => true

lemma isChain_unchained (e : Access) : (unchained e).isChain = false := by
  induction e using induction with
  | chain e ih => exact ih
  | _ => rfl

lemma rechain_eq_self_of_unchained {e : Access} (hc : e.isChain = false)
    (h : unchained e = e ↔ e.every isFit = true ∧ e.every isSettled = true) :
    rechain e = e ↔ e.isClosed = true ∧ e.every isSettled = true := by
  have hclosed : e.isClosed = true ↔ e.hasOptional = false ∧ e.every isFit = true := by
    simp [isClosed]
  rw [hclosed, and_assoc, ← h, rechain, close]
  split
  · rename_i ho
    constructor
    · intro he
      rw [← he] at hc
      simp [isChain] at hc
    · rintro ⟨hn, he⟩
      rw [he, hn] at ho
      simp at ho
  · rename_i ho
    refine ⟨fun he => ⟨?_, he⟩, fun he => he.2⟩
    rw [he] at ho
    simpa using ho

lemma rechain_chain_eq_self {e : Access}
    (h : unchained e = e ↔
      e.isChain = false ∧ e.every isFit = true ∧ e.every isSettled = true) :
    rechain (.chain e) = .chain e ↔
      isClosed (.chain e) = true ∧ every isSettled (.chain e) = true := by
  have hnot : e.hasOptional = true → e.isChain = false := by
    cases e <;> simp [hasOptional, isChain]
  have hclosed : isClosed (.chain e) = true ↔ e.hasOptional = true ∧ e.every isFit = true := by
    rw [isClosed, Bool.and_eq_true, every_chain]
    simp [hasOptional, isFit]
  have hsettled : every isSettled (.chain e) = true ↔ e.every isSettled = true := by
    rw [every_chain]
    simp [isSettled]
  have hright : (e.hasOptional = true ∧ e.every isFit = true) ∧ e.every isSettled = true ↔
      e.hasOptional = true ∧ unchained e = e := by
    rw [h]
    exact ⟨fun hf => ⟨hf.1.1, hnot hf.1.1, hf.1.2, hf.2⟩, fun hf => ⟨⟨hf.1, hf.2.2.1⟩, hf.2.2.2⟩⟩
  rw [hclosed, hsettled, hright, rechain, unchained, close]
  split
  · rename_i ho
    rw [chain.injEq]
    exact ⟨fun he => ⟨he ▸ ho, he⟩, fun he => he.2⟩
  · rename_i ho
    constructor
    · intro he
      have := isChain_unchained e
      rw [he] at this
      simp [isChain] at this
    · rintro ⟨he, hu⟩
      rw [hu] at ho
      exact absurd he ho

theorem unchained_and_rechain_eq_self (e : Access) : e.every isNewless = true →
    (unchained e = e ↔ e.isChain = false ∧ e.every isFit = true ∧ e.every isSettled = true) ∧
      (rechain e = e ↔ e.isClosed = true ∧ e.every isSettled = true) := by
  induction e using induction with
  | ident s =>
    intro _
    simp [unchained, rechain, close, hasOptional, isClosed, isChain, every, isFit, isSettled]
  | link o e l ih ihs =>
    intro hn
    obtain ⟨-, hne, hnl⟩ := every_link.1 hn
    have hl : l.map rechain = l ↔
        ∀ x ∈ l.operands, x.isClosed = true ∧ x.every isSettled = true := by
      rw [Link.map_eq_self]
      exact forall₂_congr fun x hx => (ihs x hx (hnl x hx)).2
    have hlink : unchained (.link o e l) = .link o e l ↔
        every isFit (.link o e l) = true ∧ every isSettled (.link o e l) = true := by
      rw [unchained, rechainLink_eq_map, Access.link.injEq, (ih hne).1, hl, every_link, every_link]
      simp only [isFit, isSettled, isClosed, List.all_eq_true, Bool.and_eq_true,
        Bool.not_eq_true']
      grind
    refine ⟨?_, rechain_eq_self_of_unchained rfl hlink⟩
    rw [hlink]
    simp [isChain]
  | new e as => simp [every, isNewless]
  | chain e ih =>
    intro hn
    have he := (ih (every_chain.1 hn).2).1
    refine ⟨?_, rechain_chain_eq_self he⟩
    have := isChain_unchained e
    simp only [unchained, isChain, Bool.true_eq_false, false_and, iff_false]
    intro hu
    rw [hu] at this
    simp [isChain] at this

lemma reads_close {ts : List Token} {e : Access} (h : Reads e.phrase ts e) :
    Reads .leftHandSide ts (close e) := by
  rw [close]
  split
  · rename_i ho
    rw [phrase, if_pos ho] at h
    exact .chain h
  · rename_i ho
    exact reads_of_phrase (by simpa using ho) h

theorem reads_unchained (e : Access) : e.every isNamed = true → e.every isNewless = true →
    Reads (unchained e).phrase (tokens (pieces e)) (unchained e) := by
  induction e using induction with
  | ident s => exact fun h _ => .ident h
  | link o e l ih ihs =>
    intro hn hw
    obtain ⟨hname, hne, hnl⟩ := every_link.1 hn
    obtain ⟨-, hwe, hwl⟩ := every_link.1 hw
    have hl : ReadsOperands rechain l := by
      refine ⟨?_, fun x hx => reads_close (ihs x hx (hnl x hx) (hwl x hx))⟩
      rintro s rfl
      exact hname
    have hextended := extended_phrase o (unchained e) (l.map rechain)
    rw [Link.isCall_map] at hextended
    rw [pieces, tokens_append, unchained, rechainLink_eq_map]
    exact (ih hne hwe).link hl hextended
  | new e as => simp [every, isNewless]
  | chain e ih => exact fun hn hw => ih (every_chain.1 hn).2 (every_chain.1 hw).2

lemma pieces_close (e : Access) : pieces (close e) = pieces e := by
  rw [close]
  split <;> rfl

theorem pieces_unchained (e : Access) : e.every isNewless = true →
    pieces (unchained e) = pieces e := by
  induction e using induction with
  | ident s => exact fun _ => rfl
  | link o e l ih ihs =>
    intro hw
    obtain ⟨-, hwe, hwl⟩ := every_link.1 hw
    have hx : ∀ x ∈ l.operands, pieces (rechain x) = pieces x := fun x hx => by
      rw [rechain, pieces_close, ihs x hx (hwl x hx)]
    have hl : linkPieces o (l.map rechain) = linkPieces o l := by
      cases l with
      | name s => rfl
      | property p => rw [Link.map, linkPieces, linkPieces, hx p (by simp [Link.operands])]
      | arguments as =>
        have hmap : as.map (pieces ∘ rechain) = as.map pieces := List.map_congr_left hx
        rw [Link.map, linkPieces, linkPieces, listed_eq_map, listed_eq_map, List.map_map, hmap]
    rw [unchained, pieces, pieces, rechainLink_eq_map, ih hwe, hl]
  | new e as => simp [every, isNewless]
  | chain e ih => exact fun hw => ih (every_chain.1 hw).2

/-- Two expressions are written alike exactly if they are read alike, with every link in one chain
from the head on. So they are the same if all optional links and chains are in their place and no
chain is continued. -/
theorem printed_alike_iff_rechain_eq {e d : Access} {t u : Tree} (he : Shows e t) (hd : Shows d u)
    (hne : e.every isNewless = true) (hnd : d.every isNewless = true) :
    ∃ text text', Source.print t = .ok text ∧ Source.print u = .ok text' ∧
      (text = text' ↔ rechain e = rechain d) ∧
      (e.isClosed = true → e.every isSettled = true → d.isClosed = true →
        d.every isSettled = true → (text = text' ↔ e = d)) := by
  have halike : String.ofList (chars (pieces e)) = String.ofList (chars (pieces d)) ↔
      rechain e = rechain d := by
    have hwe := isNamed_of_shows e t he
    have hwd := isNamed_of_shows d u hd
    constructor
    · intro h
      have hlex : some (tokens (pieces e)) = some (tokens (pieces d)) := by
        rw [← lex_pieces hwe, ← lex_pieces hwd, String.ofList_injective h]
      have hre := reads_close (reads_unchained e hwe hne)
      rw [Option.some.inj hlex] at hre
      exact hre.unique (reads_close (reads_unchained d hwd hnd))
    · intro h
      have hpieces (e : Access) (hn : e.every isNewless = true) : pieces (rechain e) = pieces e := by
        rw [rechain, pieces_close, pieces_unchained e hn]
      rw [← hpieces e hne, h, hpieces d hnd]
  refine ⟨_, _, print_of_shows he, print_of_shows hd, halike, fun hce hse hcd hsd => ?_⟩
  rw [halike, (unchained_and_rechain_eq_self e hne).2.2 ⟨hce, hse⟩,
    (unchained_and_rechain_eq_self d hnd).2.2 ⟨hcd, hsd⟩]

def nestedChain : Access :=
  .chain (.link true (.link false (.ident "a") (.property
    (.chain (.link true (.ident "f") (.arguments []))))) (.name "b"))

def movedChain : Access :=
  .chain (.link false (.link true (.ident "a") (.property
    (.chain (.link true (.ident "f") (.arguments []))))) (.name "b"))

theorem printed_alike_iff_rechain_eq_moved :
    (nestedChain.isClosed = true ∧ nestedChain.every isSettled = true) ∧
      (movedChain.isClosed = true ∧ movedChain.every isSettled = true) ∧
      ∃ text text', Source.print nestedChain.tree = .ok text ∧
        Source.print movedChain.tree = .ok text' ∧
        (text = text' ↔ rechain nestedChain = rechain movedChain) ∧
        (nestedChain.isClosed = true → nestedChain.every isSettled = true →
          movedChain.isClosed = true → movedChain.every isSettled = true →
          (text = text' ↔ nestedChain = movedChain)) :=
  ⟨by decide, by decide, printed_alike_iff_rechain_eq (shows_tree nestedChain (by decide))
    (shows_tree movedChain (by decide)) (by decide) (by decide)⟩

def continuedChain : Access :=
  .link false (.chain (.link true (.ident "a") (.name "b"))) (.name "c")

def extendedChain : Access :=
  .chain (.link false (.link true (.ident "a") (.name "b")) (.name "c"))

theorem printed_chain_loses_its_end :
    continuedChain.isClosed = true ∧ extendedChain.isClosed = true ∧
      continuedChain ≠ extendedChain ∧
      Shows continuedChain continuedChain.tree ∧ Shows extendedChain extendedChain.tree ∧
      Source.print continuedChain.tree = .ok "a?.b.c" ∧
      Source.print extendedChain.tree = .ok "a?.b.c" := by
  have hc := shows_tree continuedChain (by decide)
  have hx := shows_tree extendedChain (by decide)
  exact ⟨by decide, by decide, nofun, hc, hx, print_of_chars hc (by decide),
    print_of_chars hx (by decide)⟩

end Overload.Syntax.Access
