import Ferret.Index.Draft
import Ferret.Lib.Tournament
import Mathlib.Algebra.Order.BigOperators.Group.List
import Mathlib.Data.List.GetD

/-!
# Merging segments

Ranges are disjoint and ascending, so a merge is concatenation plus purge:
each term's documents are taken input by input, in range order, filtered by
liveness and appended. Terms come out of a loser tree over the inputs'
dictionaries, ordered by term and then by input, so equal terms win in range
order; fingerprint records come out of a heap, once each.

`stream` is the merge as the source runs it, term by term into a writer. It
is proved against what the inputs hold: `merged_terms` says which terms the
dictionaries' merge pushes and with which documents, `merged_records` which
records it carries, and `Draft` that the writer keeps all of them.
-/

namespace Ferret

open List

namespace Merge

/-- One input of the dictionaries' merge: its current term and that term's
documents, `none` once it is exhausted, when the term is stale. -/
structure Input where
  term : Bytes
  entry : Option (List ℕ)
  rest : List (Bytes × List ℕ)
  /-- Whether the input's whole range is live. -/
  whole : Bool

/-- Steps an input, leaving its term as it was once it is done. -/
def Input.next (c : Input) : Input :=
  match c.rest with
  | [] => { c with entry := none }
  | (term, docs) :: rest => { c with term := term, entry := some docs, rest := rest }

/-- Whether an input's whole range is live. -/
def wholly_live (live : DocSet) (c : Contents) : Bool :=
  decide (live.count c.first (min (c.last + 1) (docLimit - 1)) = c.last - c.first + 1)

/-- An input standing on its first term. -/
def Input.start (live : DocSet) (c : Contents) : Input :=
  Input.next { term := [], entry := none, rest := c.terms, whole := wholly_live live c }

/-- An input that holds nothing. -/
def Input.spent : Input where
  term := []
  entry := none
  rest := []
  whole := false

/-- The order of the inputs: by term and then by input, exhausted last. -/
def key (inputs : List Input) (i : ℕ) : Bool ×ₗ Bytes ×ₗ ℕ :=
  toLex ((inputs.getD i Input.spent).entry.isNone, toLex ((inputs.getD i Input.spent).term, i))

def before (inputs : List Input) (a b : ℕ) : Bool :=
  decide (key inputs a < key inputs b)

/-- How many terms the inputs have left. -/
def weight (inputs : List Input) : ℕ :=
  (inputs.map fun c => (if c.entry.isNone then 0 else 1) + c.rest.length).sum

/-- The documents of a term from every input that stands on it, in the order
the tree yields them. -/
def gather (live : DocSet) (term : Bytes) :
    ℕ → List Input → Tournament.Tree → List ℕ → List Input × Tournament.Tree × List ℕ
  | 0, inputs, tree, docs => (inputs, tree, docs)
  | fuel + 1, inputs, tree, docs =>
    let j := tree.winner
    let c := inputs.getD j Input.spent
    match c.entry with
    | none => (inputs, tree, docs)
    | some list =>
      if c.term = term then
        let docs := docs ++ if c.whole then list else list.filter live.contains
        let inputs := inputs.set j c.next
        gather live term fuel inputs (tree.replay j (before inputs)) docs
      else (inputs, tree, docs)

/-- Writes each term of the inputs once, with its live documents from every
input that holds it, in input order. -/
def merge_terms (fingerprint : Bytes → ℕ) (live : DocSet) :
    ℕ → List Input → Tournament.Tree → Draft → Except WriteError Draft
  | 0, _, _, writer => .ok writer
  | fuel + 1, inputs, tree, writer =>
    match (inputs.getD tree.winner Input.spent).entry with
    | none => .ok writer
    | some _ =>
      let term := (inputs.getD tree.winner Input.spent).term
      let q := gather live term (weight inputs + 1) inputs tree []
      if q.2.2 = [] then merge_terms fingerprint live fuel q.1 q.2.1 writer
      else do
        let writer ← writer.push fingerprint term q.2.2
        merge_terms fingerprint live fuel q.1 q.2.1 writer

/-- Takes the least element off a heap. -/
def pop (heap : List (Record ×ₗ ℕ)) : Option ((Record ×ₗ ℕ) × List (Record ×ₗ ℕ)) :=
  heap.min?.map fun top => (top, heap.erase top)

/-- Writes the fingerprint records of the inputs in order, once each, for
live documents. Each input's next record is on the heap, the rest in `rests`;
`carried` and `removed` count those it wrote and those it dropped as dead. -/
def merge_records (live : DocSet) :
    ℕ → List (Record ×ₗ ℕ) → List (List Record) → Option Record → Draft → ℕ → ℕ →
      Except WriteError (Draft × ℕ × ℕ)
  | 0, _, _, _, writer, carried, removed => .ok (writer, carried, removed)
  | fuel + 1, heap, rests, previous, writer, carried, removed =>
    match pop heap with
    | none => .ok (writer, carried, removed)
    | some (top, heap) => do
      let record := (ofLex top).1
      let i := (ofLex top).2
      let alive := live.contains (ofLex record).2
      let fresh := alive && decide (previous ≠ some record)
      let writer ← if fresh then writer.push_record (ofLex record).1 (ofLex record).2
        else .ok writer
      let previous := if fresh then some record else previous
      let carried := if fresh then carried + 1 else carried
      let removed := if alive then removed else removed + 1
      match rests.getD i [] with
      | [] => merge_records live fuel heap rests previous writer carried removed
      | next :: rest =>
        merge_records live fuel (toLex (next, i) :: heap) (rests.set i rest) previous writer
          carried removed

/-- The heap of the inputs' first records. -/
def first_records : ℕ → List (List Record) → List (Record ×ₗ ℕ)
  | _, [] => []
  | i, [] :: rest => first_records (i + 1) rest
  | i, (r :: _) :: rest => toLex (r, i) :: first_records (i + 1) rest

/-- What a merge reports beside the segment it wrote. -/
structure Sizes where
  records_added : ℕ
  records_removed : ℕ
deriving DecidableEq

/-- **Merges `inputs`, adjacent and in range order, into `writer`**, dropping
documents not in `live`, and completes the writer's segment. -/
def stream (fingerprint : Bytes → ℕ) (inputs : List Contents) (live : DocSet) (writer : Draft) :
    Except WriteError (Draft × Sizes) := do
  let starts := inputs.map (Input.start live)
  let writer ← merge_terms fingerprint live (weight starts + 1) starts
    (Tournament.new inputs.length (before starts)) writer
  let records := inputs.map Contents.records
  let (writer, carried, removed) ← merge_records live ((records.map List.length).sum + 1)
    (first_records 0 records) (records.map List.tail) none writer 0 0
  let writer ← writer.finish
  .ok (writer, { records_added := writer.records.length - carried, records_removed := removed })

/-! ## The dictionaries -/

/-- The terms an input has left. -/
def Input.left (c : Input) : List (Bytes × List ℕ) :=
  match c.entry with
  | none => []
  | some docs => (c.term, docs) :: c.rest

/-- An input stands on its least term, and its flag tells the truth. -/
structure Input.Ok (live : DocSet) (c : Input) : Prop where
  sorted : c.left.Pairwise fun p q => p.1 < q.1
  rest_eq : c.entry = none → c.rest = []
  whole : c.whole = true → ∀ p ∈ c.left, ∀ d ∈ p.2, live.contains d = true

variable {c : Input} {docs : List ℕ} {live : DocSet} {terms : List (Bytes × List ℕ)}
  {term t : Bytes} {inputs : List Input} {tree : Tournament.Tree} {i : ℕ}
  {heap : List (Record ×ₗ ℕ)} {rests : List (List Record)} {top : Record ×ₗ ℕ}

theorem Input.left_of_some (h : c.entry = some docs) : c.left = (c.term, docs) :: c.rest := by
  rw [left, h]

theorem Input.left_next (c : Input) : c.next.left = c.rest := by
  obtain ⟨_, _, rest, _⟩ := c
  cases rest with
  | nil => rfl
  | cons p rest => rfl

theorem Input.whole_next (c : Input) : c.next.whole = c.whole := by
  obtain ⟨_, _, rest, _⟩ := c
  cases rest with
  | nil => rfl
  | cons p rest => rfl

theorem Input.Ok.next (h : c.Ok live) (he : c.entry = some docs) : c.next.Ok live := by
  have hleft := c.left_of_some he
  refine ⟨?_, ?_, fun hw p hp => ?_⟩
  · rw [c.left_next]
    have := h.sorted
    rw [hleft] at this
    exact (pairwise_cons.mp this).2
  · obtain ⟨_, _, rest, _⟩ := c
    cases rest with
    | nil => exact fun _ => rfl
    | cons p rest => exact nofun
  · rw [c.left_next] at hp
    rw [c.whole_next] at hw
    exact h.whole hw p (hleft ▸ .tail _ hp)

/-- An input's live documents of a term. -/
def Input.live_docs (live : DocSet) (term : Bytes) (c : Input) : List ℕ :=
  (docsOf c.left term).filter live.contains

theorem docsOf_eq_nil (h : ∀ p ∈ terms, p.1 ≠ term) : docsOf terms term = [] := by
  rw [docsOf, lookup_eq_none_iff.mpr fun p hp => by simpa using (h p hp).symm]
  rfl

theorem docsOf_cons_self (term : Bytes) (docs : List ℕ) (rest : List (Bytes × List ℕ)) :
    docsOf ((term, docs) :: rest) term = docs := by
  simp [docsOf]

theorem docsOf_cons_of_ne (h : t ≠ term) (docs : List ℕ)
    (rest : List (Bytes × List ℕ)) : docsOf ((term, docs) :: rest) t = docsOf rest t := by
  simp [docsOf, lookup_cons, beq_eq_false_iff_ne.mpr h]

/-- Whether an input stands on a term. -/
def Input.on (term : Bytes) (c : Input) : Bool :=
  c.entry.isSome && decide (c.term = term)

theorem Input.on_of_some (he : c.entry = some docs) : c.on term = decide (c.term = term) := by
  rw [on, he]
  rfl

theorem Input.on_of_none (he : c.entry = none) : c.on term = false := by
  rw [on, he]
  rfl

/-- An input past a term it stood on. -/
def Input.past (term : Bytes) (c : Input) : Input :=
  if c.on term then c.next else c

/-- No input has a term below `term`. -/
def AllFrom (term : Bytes) (inputs : List Input) : Prop :=
  ∀ c ∈ inputs, ∀ p ∈ c.left, term ≤ p.1

theorem Input.live_docs_of_on (h : c.Ok live) (he : c.entry = some docs) (ht : c.term = term) :
    c.live_docs live term = if c.whole then docs else docs.filter live.contains := by
  subst ht
  have hleft := c.left_of_some he
  rw [live_docs, hleft, docsOf_cons_self]
  split
  next hw =>
    refine filter_eq_self.mpr fun d hd => ?_
    exact h.whole hw (c.term, docs) (hleft ▸ .head _) d hd
  next => rfl

theorem Input.live_docs_of_not_on (h : c.Ok live)
    (hfrom : ∀ p ∈ c.left, term ≤ p.1) (hon : c.on term = false) :
    c.live_docs live term = [] := by
  rw [live_docs, docsOf_eq_nil, filter_nil]
  intro p hp
  cases he : c.entry with
  | none =>
    rw [left, he] at hp
    cases hp
  | some _ =>
    have hleft := c.left_of_some he
    have hne : c.term ≠ term := of_decide_eq_false ((on_of_some he).symm.trans hon)
    have hs := h.sorted
    rw [hleft] at hp hfrom hs
    have hlt : term < c.term :=
      lt_of_le_of_ne (hfrom _ (.head _)) (Ne.symm hne)
    rcases mem_cons.mp hp with rfl | hp
    · exact hne
    · exact (hlt.trans ((pairwise_cons.mp hs).1 p hp)).ne'

/-- An input that stood on a term is past it for good. -/
theorem Input.next_not_on (h : c.Ok live) (hon : c.on term = true) :
    c.next.on term = false ∧ ∀ p ∈ c.next.left, term < p.1 := by
  rw [on, Bool.and_eq_true, decide_eq_true_eq] at hon
  obtain ⟨_, he⟩ := Option.isSome_iff_exists.mp hon.1
  have hs := h.sorted
  rw [c.left_of_some he] at hs
  have hlt : ∀ p ∈ c.next.left, term < p.1 := fun p hp => by
    rw [c.left_next] at hp
    rw [← hon.2]
    exact (pairwise_cons.mp hs).1 p hp
  refine ⟨?_, hlt⟩
  cases hn : c.next.entry with
  | none => exact on_of_none hn
  | some docs' =>
    have hmem : (c.next.term, docs') ∈ c.next.left :=
      c.next.left_of_some hn ▸ .head _
    rw [on_of_some hn]
    exact decide_eq_false (hlt _ hmem).ne'

/-! ### The tree over the inputs -/

theorem key_injective (inputs : List Input) : Function.Injective (key inputs) := by
  intro a b h
  have h₁ : toLex ((inputs.getD a Input.spent).term, a)
      = toLex ((inputs.getD b Input.spent).term, b) := congrArg (fun k => (ofLex k).2) h
  exact congrArg (fun k => (ofLex k).2) h₁

theorem decides_before (inputs : List Input) :
    Tournament.Decides (before inputs) (key inputs) := fun _ _ => rfl

/-- The tree knows the inputs. -/
def Standing (inputs : List Input) (tree : Tournament.Tree) : Prop :=
  Tournament.Sound (key inputs) inputs.length tree

theorem Standing.step (h : Standing inputs tree) (hne : 1 ≤ inputs.length) (c : Input) :
    let inputs' := inputs.set tree.winner c
    Standing inputs' (tree.replay tree.winner (before inputs')) := by
  intro inputs'
  have hlen : inputs'.length = inputs.length := length_set ..
  unfold Standing
  rw [hlen]
  refine h.replay (decides_before inputs') hne (key_injective _) (key_injective _) fun i hi => ?_
  have hget : inputs'.getD i Input.spent = inputs.getD i Input.spent := by
    simp only [inputs', getD_eq_getElem?_getD, getElem?_set_ne (Ne.symm hi)]
  rw [key, key, hget]

/-- An input that stands on a term no later than the winner's is the winner
or comes after it. -/
theorem Standing.winner_first (h : Standing inputs tree) (hi : i < inputs.length)
    (he : (inputs.getD i Input.spent).entry = some docs) :
    (∃ docs', (inputs.getD tree.winner Input.spent).entry = some docs')
      ∧ (inputs.getD tree.winner Input.spent).term ≤ (inputs.getD i Input.spent).term
      ∧ ((inputs.getD tree.winner Input.spent).term = (inputs.getD i Input.spent).term →
          tree.winner ≤ i) := by
  have hle : key inputs tree.winner ≤ key inputs i := Tournament.Sound.winner_le h hi
  rw [key, key, he, Prod.Lex.le_iff] at hle
  simp only [ofLex_toLex, Option.isNone_some] at hle
  have hentry : (inputs.getD tree.winner Input.spent).entry.isNone = false := by
    rcases hle with hlt | hle
    · exact absurd hlt (by simp)
    · exact hle.1
  have hle' := (hle.resolve_left (by simp)).2
  rw [Prod.Lex.le_iff] at hle'
  simp only [ofLex_toLex] at hle'
  refine ⟨?_, ?_, fun heq => ?_⟩
  · cases hw : (inputs.getD tree.winner Input.spent).entry with
    | none =>
      rw [hw] at hentry
      cases hentry
    | some docs' => exact ⟨docs', rfl⟩
  · exact hle'.elim le_of_lt fun hle => hle.1.le
  · exact (hle'.resolve_left fun hlt => hlt.ne heq).2

/-- With the least term of the inputs, the winner is the first input that
stands on it, if any does. -/
theorem Standing.winner_on (h : Standing inputs tree) (hfrom : AllFrom term inputs)
    (hi : i < inputs.length) (hon : (inputs.getD i Input.spent).on term = true) :
    (inputs.getD tree.winner Input.spent).on term = true ∧ tree.winner ≤ i := by
  rw [Input.on, Bool.and_eq_true, decide_eq_true_eq] at hon
  obtain ⟨_, he⟩ := Option.isSome_iff_exists.mp hon.1
  obtain ⟨⟨_, hw⟩, hle, hfirst⟩ := h.winner_first hi he
  have hwin : tree.winner < inputs.length := Tournament.Sound.winner_lt h (by omega)
  have hmem : inputs.getD tree.winner Input.spent ∈ inputs := by
    rw [getD_eq_getElem _ _ hwin]
    exact getElem_mem hwin
  have hge := hfrom _ hmem _ (Input.left_of_some hw ▸ mem_cons_self ..)
  have heq : (inputs.getD tree.winner Input.spent).term = term :=
    le_antisymm (hle.trans hon.2.le) hge
  refine ⟨?_, hfirst (heq.trans hon.2.symm)⟩
  rw [Input.on_of_some hw, heq, decide_eq_true rfl]

/-- **The documents of a term are gathered in input order**, and the inputs
that stood on it are past it. -/
theorem gather_spec (fuel : ℕ) (hok : ∀ c ∈ inputs, c.Ok live) (htree : Standing inputs tree)
    (hfrom : AllFrom term inputs) (hfuel : inputs.countP (Input.on term) < fuel) (docs : List ℕ) :
    let q := gather live term fuel inputs tree docs
    q.1 = inputs.map (Input.past term) ∧ Standing q.1 q.2.1
      ∧ q.2.2 = docs ++ inputs.flatMap (Input.live_docs live term) := by
  induction fuel generalizing inputs tree docs with
  | zero => exact absurd hfuel (by omega)
  | succ fuel ih =>
    -- what is left to do once no input stands on the term
    have hdone : (∀ c ∈ inputs, c.on term = false) →
        inputs = inputs.map (Input.past term) ∧ Standing inputs tree
          ∧ docs = docs ++ inputs.flatMap (Input.live_docs live term) := by
      intro hoff
      have hdocs : inputs.flatMap (Input.live_docs live term) = [] :=
        flatMap_eq_nil_iff.mpr fun c hc =>
          Input.live_docs_of_not_on (hok c hc) (hfrom c hc) (hoff c hc)
      have hpast : inputs.map (Input.past term) = inputs :=
        (map_congr_left fun c hc => by simp [Input.past, hoff c hc]).trans (map_id _)
      rw [hdocs, hpast, append_nil]
      exact ⟨rfl, htree, rfl⟩
    have hoff : (inputs.getD tree.winner Input.spent).on term = false →
        ∀ c ∈ inputs, c.on term = false := by
      intro hwin c hc
      by_contra hcon
      obtain ⟨i, hi, rfl⟩ := mem_iff_getElem.mp hc
      rw [← getD_eq_getElem _ Input.spent hi] at hcon
      have := (htree.winner_on hfrom hi (by simpa using hcon)).1
      rw [hwin] at this
      cases this
    unfold gather
    cases he : (inputs.getD tree.winner Input.spent).entry with
    | none =>
      simp only [he]
      exact hdone (hoff (Input.on_of_none he))
    | some list =>
      by_cases ht : (inputs.getD tree.winner Input.spent).term = term
      · simp only [he, ht, if_true]
        have hon : (inputs.getD tree.winner Input.spent).on term = true := by
          rw [Input.on_of_some he, ht, decide_eq_true rfl]
        have hpos : 1 ≤ inputs.length := by
          by_contra hcon
          obtain rfl : inputs = [] := length_eq_zero_iff.mp (by omega)
          cases he
        have hwin : tree.winner < inputs.length := Tournament.Sound.winner_lt htree hpos
        -- the winner splits the inputs: none before it stands on the term
        obtain ⟨pre, post, hsplit, hlen⟩ : ∃ pre post,
            inputs = pre ++ inputs.getD tree.winner Input.spent :: post
              ∧ pre.length = tree.winner :=
          ⟨inputs.take tree.winner, inputs.drop (tree.winner + 1), by
            rw [getD_eq_getElem _ _ hwin, cons_getElem_drop_succ,
              take_append_drop], length_take_of_le hwin.le⟩
        have hbefore : ∀ c ∈ pre, c.on term = false := by
          intro c hc
          by_contra hcon
          obtain ⟨i, hi, rfl⟩ := mem_iff_getElem.mp hc
          have hget : inputs.getD i Input.spent = pre[i] := by
            rw [hsplit, getD_append _ _ _ _ hi, getD_eq_getElem _ _ hi]
          have hon' : (inputs.getD i Input.spent).on term = true := by
            rw [hget]
            simpa using hcon
          have := (htree.winner_on hfrom (by omega) hon').2
          omega
        set c := inputs.getD tree.winner Input.spent with hc
        have hset : inputs.set tree.winner c.next = pre ++ c.next :: post := by
          rw [hsplit, ← hlen, set_append_right _ _ le_rfl, Nat.sub_self, set_cons_zero]
        have hcok : c.Ok live := hok c (hsplit ▸ by simp)
        obtain ⟨hnext, hlater⟩ := Input.next_not_on hcok hon
        have hmem : ∀ c' ∈ pre ++ c.next :: post, c' ∈ inputs ∨ c' = c.next := by
          intro c' hc'
          rw [hsplit]
          simp only [mem_append, mem_cons] at hc' ⊢
          tauto
        have hstep := htree.step hpos c.next
        have hrec := @ih (pre ++ c.next :: post)
          (tree.replay tree.winner (before (pre ++ c.next :: post)))
          (fun c' hc' => (hmem c' hc').elim (hok c') fun h => h ▸ hcok.next he)
          (by rw [← hset]; exact hstep)
          (fun c' hc' p hp => (hmem c' hc').elim (fun h => hfrom c' h p hp)
            fun h => (hlater p (h ▸ hp)).le)
          (by
            rw [hsplit, countP_append, countP_cons] at hfuel
            rw [countP_append, countP_cons]
            simp only [hon, hnext, if_true] at hfuel ⊢
            simp only [Bool.false_eq_true, if_false]
            omega)
          (docs ++ if c.whole then list else list.filter live.contains)
        rw [hset]
        obtain ⟨h₁, h₂, h₃⟩ := hrec
        have hpast : (pre ++ c.next :: post).map (Input.past term)
            = inputs.map (Input.past term) := by
          rw [hsplit]
          simp only [map_append, map_cons, Input.past, hon, hnext, if_true,
            Bool.false_eq_true, if_false]
        have hnil : c.next.live_docs live term = [] :=
          Input.live_docs_of_not_on (hcok.next he) (fun p hp => (hlater p hp).le) hnext
        have hpre : pre.flatMap (Input.live_docs live term) = [] :=
          flatMap_eq_nil_iff.mpr fun c' hc' => Input.live_docs_of_not_on
            (hok c' (hsplit ▸ mem_append_left _ hc'))
            (hfrom c' (hsplit ▸ mem_append_left _ hc')) (hbefore c' hc')
        refine ⟨h₁.trans hpast, h₂, h₃.trans ?_⟩
        rw [hsplit, flatMap_append, flatMap_append, flatMap_cons, flatMap_cons,
          hpre, hnil, Input.live_docs_of_on hcok he ht]
        simp only [nil_append, append_assoc]
      · simp only [he, ht, if_false]
        exact hdone (hoff (by rw [Input.on_of_some he, decide_eq_false ht]))

/-! ### The loop over the terms -/

/-- The terms a merge pushes, with their documents. -/
def merged_terms (live : DocSet) : ℕ → List Input → Tournament.Tree → List (Bytes × List ℕ)
  | 0, _, _ => []
  | fuel + 1, inputs, tree =>
    match (inputs.getD tree.winner Input.spent).entry with
    | none => []
    | some _ =>
      let term := (inputs.getD tree.winner Input.spent).term
      let q := gather live term (weight inputs + 1) inputs tree []
      if q.2.2 = [] then merged_terms live fuel q.1 q.2.1
      else (term, q.2.2) :: merged_terms live fuel q.1 q.2.1

/-- The merge pushes exactly those. -/
theorem merge_terms_eq (fingerprint : Bytes → ℕ) (live : DocSet) (fuel : ℕ)
    (inputs : List Input) (tree : Tournament.Tree) (writer : Draft) :
    merge_terms fingerprint live fuel inputs tree writer
      = (merged_terms live fuel inputs tree).foldlM
          (fun w p => w.push fingerprint p.1 p.2) writer := by
  induction fuel generalizing inputs tree writer with
  | zero => rfl
  | succ fuel ih =>
    unfold merge_terms merged_terms
    cases (inputs.getD tree.winner Input.spent).entry with
    | none => rfl
    | some _ =>
      dsimp only
      split
      next => exact ih _ _ _
      next =>
        rw [foldlM_cons]
        simp only [ih]

theorem weight_eq (inputs : List Input) (hok : ∀ c ∈ inputs, c.entry = none → c.rest = []) :
    weight inputs = (inputs.map fun c => c.left.length).sum := by
  unfold weight
  congr 1
  refine map_congr_left fun c hc => ?_
  cases he : c.entry with
  | none => simp [Input.left, he, hok c hc he]
  | some _ => simp [Input.left, he, add_comm]

theorem countP_on_le (term : Bytes) (inputs : List Input) :
    inputs.countP (Input.on term) ≤ weight inputs := by
  induction inputs with
  | nil => exact le_rfl
  | cons c inputs _ =>
    have hw : weight (c :: inputs)
        = ((if c.entry.isNone then 0 else 1) + c.rest.length) + weight inputs := by
      simp [weight]
    rw [hw, countP_cons]
    cases he : c.entry with
    | none =>
      rw [Input.on_of_none he]
      simp only [Bool.false_eq_true, if_false]
      omega
    | some _ =>
      have : (if c.on term = true then 1 else 0) ≤ 1 := by split <;> omega
      simp only [Option.isNone_some, Bool.false_eq_true, if_false]
      omega

theorem Input.Ok.past (h : c.Ok live) (term : Bytes) : (c.past term).Ok live := by
  unfold Input.past
  split
  next hon =>
    rw [on, Bool.and_eq_true] at hon
    obtain ⟨_, he⟩ := Option.isSome_iff_exists.mp hon.1
    exact h.next he
  next => exact h

/-- Past its least term, an input has only later ones, with the documents it
had for them. -/
theorem Input.left_past (h : c.Ok live) (hfrom : ∀ p ∈ c.left, term ≤ p.1) :
    (∀ p ∈ (c.past term).left, term < p.1 ∧ p ∈ c.left)
      ∧ (∀ t, t ≠ term → docsOf (c.past term).left t = docsOf c.left t)
      ∧ (c.past term).left.length + (if c.on term then 1 else 0) = c.left.length := by
  unfold Input.past
  by_cases hon : c.on term = true
  · simp only [hon, if_true]
    have hlater := (next_not_on h hon).2
    have hon' := hon
    rw [on, Bool.and_eq_true, decide_eq_true_eq] at hon'
    obtain ⟨docs, he⟩ := Option.isSome_iff_exists.mp hon'.1
    have hleft := c.left_of_some he
    refine ⟨fun p hp => ⟨hlater p hp, ?_⟩, fun t ht => ?_, ?_⟩
    · rw [c.left_next] at hp
      rw [hleft]
      exact .tail _ hp
    · rw [c.left_next, hleft, docsOf_cons_of_ne (hon'.2 ▸ ht)]
    · rw [c.left_next, hleft, length_cons]
  · have hoff : c.on term = false := by simpa using hon
    simp only [hoff, Bool.false_eq_true, if_false, add_zero, and_true, implies_true]
    intro p hp
    refine ⟨lt_of_le_of_ne (hfrom p hp) ?_, hp⟩
    cases he : c.entry with
    | none =>
      rw [left, he] at hp
      cases hp
    | some docs =>
      have hne : c.term ≠ term := of_decide_eq_false ((on_of_some he).symm.trans hoff)
      have hs := h.sorted
      rw [c.left_of_some he] at hp hfrom hs
      have hlt := lt_of_le_of_ne (hfrom _ (.head _)) (Ne.symm hne)
      rcases mem_cons.mp hp with rfl | hp
      · exact hlt.ne
      · exact (hlt.trans ((pairwise_cons.mp hs).1 p hp)).ne

/-- **What the dictionaries' merge pushes**: every term that has a live
document, in order, with the concatenation of its live documents. -/
theorem merged_terms_spec (fuel : ℕ) (hok : ∀ c ∈ inputs, c.Ok live) (htree : Standing inputs tree)
    (hfuel : weight inputs < fuel) :
    let ps := merged_terms live fuel inputs tree
    ps.Pairwise (fun p q => p.1 < q.1)
      ∧ (∀ p ∈ ps, ∃ c ∈ inputs, ∃ q ∈ c.left, q.1 = p.1)
      ∧ ∀ t ds, (t, ds) ∈ ps ↔ ds ≠ [] ∧ ds = inputs.flatMap (Input.live_docs live t) := by
  induction fuel generalizing inputs tree with
  | zero => exact absurd hfuel (by omega)
  | succ fuel ih =>
    unfold merged_terms
    cases he : (inputs.getD tree.winner Input.spent).entry with
    | none =>
      -- the winner is exhausted, so every input is
      have hleft : ∀ c ∈ inputs, c.left = [] := by
        intro c hc
        obtain ⟨i, hi, rfl⟩ := mem_iff_getElem.mp hc
        cases hi' : inputs[i].entry with
        | none => rw [Input.left, hi']
        | some docs =>
          rw [← getD_eq_getElem _ Input.spent hi] at hi'
          obtain ⟨_, hw⟩ := (htree.winner_first hi hi').1
          rw [he] at hw
          cases hw
      refine ⟨.nil, nofun, fun t ds => ?_⟩
      have hnil : inputs.flatMap (Input.live_docs live t) = [] :=
        flatMap_eq_nil_iff.mpr fun c hc => by rw [Input.live_docs, hleft c hc]; rfl
      rw [hnil]
      simp
    | some list =>
      set term := (inputs.getD tree.winner Input.spent).term with hterm
      have hfrom : AllFrom term inputs := by
        intro c hc p hp
        obtain ⟨i, hi, rfl⟩ := mem_iff_getElem.mp hc
        cases hi' : inputs[i].entry with
        | none =>
          rw [Input.left, hi'] at hp
          cases hp
        | some docs =>
          have hs := (hok _ hc).sorted
          rw [Input.left_of_some hi'] at hp hs
          rw [← getD_eq_getElem _ Input.spent hi] at hi'
          have hle := (htree.winner_first hi hi').2.1
          rw [getD_eq_getElem _ Input.spent hi] at hle
          rcases mem_cons.mp hp with rfl | hp
          · exact hle
          · exact hle.trans ((pairwise_cons.mp hs).1 p hp).le
      obtain ⟨h₁, h₂, h₃⟩ := gather_spec (weight inputs + 1) hok htree hfrom
        (Nat.lt_succ_of_le (countP_on_le term inputs)) []
      simp only
      generalize gather live term (weight inputs + 1) inputs tree [] = q at h₁ h₂ h₃
      obtain ⟨_, tree', docs⟩ := q
      simp only [nil_append] at h₁ h₂ h₃ ⊢
      subst h₁
      -- the winner stood on the term, so one entry fewer is left
      have hpos : tree.winner < inputs.length := by
        by_contra hcon
        rw [getD_eq_default _ _ (not_lt.mp hcon)] at he
        cases he
      have hwmem : inputs.getD tree.winner Input.spent ∈ inputs := by
        rw [getD_eq_getElem _ _ hpos]
        exact getElem_mem hpos
      have hweight : weight (inputs.map (Input.past term)) < weight inputs := by
        rw [weight_eq _ fun c hc => by
            obtain ⟨c', hc', rfl⟩ := mem_map.mp hc
            exact ((hok c' hc').past term).rest_eq,
          weight_eq _ fun c hc => (hok c hc).rest_eq, map_map]
        refine sum_lt_sum _ _ (fun c hc => ?_) ⟨_, hwmem, ?_⟩
        · have := (Input.left_past (hok c hc) (hfrom c hc)).2.2
          show (c.past term).left.length ≤ _
          omega
        · have := (Input.left_past (hok _ hwmem) (hfrom _ hwmem)).2.2
          rw [Input.on_of_some he, ← hterm, decide_eq_true rfl, if_pos rfl] at this
          show ((inputs.getD tree.winner Input.spent).past term).left.length < _
          omega
      obtain ⟨ih₁, ih₂, ih₃⟩ := ih (fun c hc => by
        obtain ⟨c', hc', rfl⟩ := mem_map.mp hc
        exact (hok c' hc').past term) h₂ (by omega)
      generalize merged_terms live fuel (inputs.map (Input.past term)) tree' = ps at ih₁ ih₂ ih₃
      have hlater : ∀ p ∈ ps, term < p.1 ∧ ∃ c ∈ inputs, ∃ q ∈ c.left, q.1 = p.1 := by
        intro p hp
        obtain ⟨c, hc, q, hq, hqp⟩ := ih₂ p hp
        obtain ⟨c', hc', rfl⟩ := mem_map.mp hc
        have := (Input.left_past (hok c' hc') (hfrom c' hc')).1 q hq
        exact ⟨hqp ▸ this.1, c', hc', q, this.2, hqp⟩
      have hsame : ∀ t, t ≠ term → (inputs.map (Input.past term)).flatMap (Input.live_docs live t)
          = inputs.flatMap (Input.live_docs live t) := by
        intro t ht
        rw [flatMap_map]
        exact flatMap_congr fun c hc => by
          rw [Input.live_docs, Input.live_docs, (Input.left_past (hok c hc) (hfrom c hc)).2.1 t ht]
      have hgone : ∀ ds, (term, ds) ∉ ps := fun ds hmem => lt_irrefl term (hlater _ hmem).1
      by_cases hdocs : docs = []
      · rw [if_pos hdocs]
        refine ⟨ih₁, fun p hp => (hlater p hp).2, fun t ds => ?_⟩
        by_cases ht : t = term
        · subst ht
          rw [← h₃, hdocs]
          exact ⟨fun hmem => absurd hmem (hgone ds), fun hc => absurd hc.2 hc.1⟩
        · rw [ih₃, hsame t ht]
      · rw [if_neg hdocs]
        refine ⟨pairwise_cons.mpr ⟨fun p hp => (hlater p hp).1, ih₁⟩, fun p hp => ?_,
          fun t ds => ?_⟩
        · rcases mem_cons.mp hp with rfl | hp
          · exact ⟨_, hwmem, (term, list), Input.left_of_some he ▸ .head _, rfl⟩
          · exact (hlater p hp).2
        · rw [mem_cons]
          by_cases ht : t = term
          · subst ht
            rw [← h₃]
            constructor
            · rintro (heq | hmem)
              · cases heq
                exact ⟨hdocs, rfl⟩
              · exact absurd hmem (hgone ds)
            · rintro ⟨-, rfl⟩
              exact .inl rfl
          · rw [ih₃, hsame t ht]
            refine or_iff_right fun heq => ht ?_
            exact congrArg Prod.fst heq

/-! ## The records -/

/-- The records a merge carries. -/
def merged_records (live : DocSet) :
    ℕ → List (Record ×ₗ ℕ) → List (List Record) → Option Record → List Record
  | 0, _, _, _ => []
  | fuel + 1, heap, rests, previous =>
    match pop heap with
    | none => []
    | some (top, heap) =>
      let record := (ofLex top).1
      let i := (ofLex top).2
      let fresh := live.contains (ofLex record).2 && decide (previous ≠ some record)
      let previous := if fresh then some record else previous
      let later :=
        match rests.getD i [] with
        | [] => merged_records live fuel heap rests previous
        | next :: rest =>
          merged_records live fuel (toLex (next, i) :: heap) (rests.set i rest) previous
      if fresh then record :: later else later

/-- The merge carries exactly those, and counts them. -/
theorem merge_records_eq (live : DocSet) (fuel : ℕ) (heap : List (Record ×ₗ ℕ))
    (rests : List (List Record)) (previous : Option Record) (writer : Draft) (carried removed : ℕ) :
    ∃ removed', merge_records live fuel heap rests previous writer carried removed
      = ((merged_records live fuel heap rests previous).foldlM
          (fun (w : Draft) r => w.push_record (ofLex r).1 (ofLex r).2) writer).map fun w =>
            (w, carried + (merged_records live fuel heap rests previous).length, removed') := by
  induction fuel generalizing heap rests previous writer carried removed with
  | zero => exact ⟨removed, rfl⟩
  | succ fuel ih =>
    unfold merge_records merged_records
    cases pop heap with
    | none => exact ⟨removed, rfl⟩
    | some q =>
      obtain ⟨top, _⟩ := q
      dsimp only
      set record := (ofLex top).1
      set i := (ofLex top).2
      cases hfresh : (live.contains (ofLex record).2 && decide (previous ≠ some record)) with
      | false =>
        simp only [Bool.false_eq_true, if_false]
        cases rests.getD i [] with
        | nil => exact ih _ _ _ _ _ _
        | cons next rest => exact ih _ _ _ _ _ _
      | true =>
        simp only [if_true, foldlM_cons, length_cons]
        cases hpush : writer.push_record (ofLex record).1 (ofLex record).2 with
        | error e => exact ⟨removed, rfl⟩
        | ok w =>
          have hcount : ∀ rs : List Record, carried + (rs.length + 1) = carried + 1 + rs.length :=
            fun rs => by omega
          cases rests.getD i [] with
          | nil | cons next rest =>
            dsimp only
            rw [hcount]
            exact ih _ _ _ _ _ _

/-- A record still to come: on the heap, or behind one that is. -/
def Pending (heap : List (Record ×ₗ ℕ)) (rests : List (List Record)) (r : Record) : Prop :=
  (∃ top ∈ heap, (ofLex top).1 = r) ∨ ∃ rest ∈ rests, r ∈ rest

/-- The heap has the first record of every input that has any left. -/
structure HeapOk (heap : List (Record ×ₗ ℕ)) (rests : List (List Record)) : Prop where
  sorted : ∀ rest ∈ rests, rest.Pairwise (· < ·)
  first : ∀ top ∈ heap, ∀ r ∈ rests.getD (ofLex top).2 [], (ofLex top).1 < r
  covers : ∀ i, rests.getD i [] ≠ [] → ∃ r, toLex (r, i) ∈ heap

/-- The top of the heap is the least record to come. -/
theorem HeapOk.top_le (h : HeapOk heap rests) (hmin : ∀ x ∈ heap, top ≤ x) {r : Record}
    (hr : Pending heap rests r) : (ofLex top).1 ≤ r := by
  have hheap : ∀ x ∈ heap, (ofLex top).1 ≤ (ofLex x).1 := fun x hx => by
    rcases Prod.Lex.le_iff.mp (hmin x hx) with hlt | heq
    · exact hlt.le
    · exact heq.1.le
  rcases hr with ⟨x, hx, rfl⟩ | ⟨_, hrest, hr⟩
  · exact hheap x hx
  · obtain ⟨i, hi, rfl⟩ := mem_iff_getElem.mp hrest
    rw [← getD_eq_getElem _ [] hi] at hr
    obtain ⟨x, hx⟩ := h.covers i (ne_nil_of_mem hr)
    exact (hheap _ hx).trans (h.first _ hx r hr).le

theorem mem_heap_iff (htop : top ∈ heap)
    (x : Record ×ₗ ℕ) : x ∈ heap ↔ x = top ∨ x ∈ heap.erase top := by
  refine ⟨fun hx => ?_, fun hx => hx.elim (fun he => he ▸ htop) mem_of_mem_erase⟩
  by_cases hxt : x = top
  · exact .inl hxt
  · exact .inr ((mem_erase_of_ne hxt).mpr hx)

/-- Taking the top off an input that has no more. -/
theorem HeapOk.drop (h : HeapOk heap rests) (htop : top ∈ heap)
    (hrest : rests.getD (ofLex top).2 [] = []) :
    HeapOk (heap.erase top) rests
      ∧ ∀ r, Pending heap rests r ↔ r = (ofLex top).1 ∨ Pending (heap.erase top) rests r := by
  refine ⟨⟨h.sorted, fun x hx => h.first x (mem_of_mem_erase hx), fun i hi => ?_⟩, fun r => ?_⟩
  · obtain ⟨r, hr⟩ := h.covers i hi
    refine ⟨r, (mem_erase_of_ne fun he => hi ?_).mpr hr⟩
    rw [← he] at hrest
    exact hrest
  · unfold Pending
    simp only [mem_heap_iff htop, exists_eq_or_imp, or_assoc]
    rw [eq_comm]

/-- Taking the top off, and putting its input's next record on. -/
theorem HeapOk.advance (h : HeapOk heap rests) (htop : top ∈ heap) {next : Record}
    {rest : List Record} (hrest : rests.getD (ofLex top).2 [] = next :: rest) :
    let heap' := toLex (next, (ofLex top).2) :: heap.erase top
    let rests' := rests.set (ofLex top).2 rest
    HeapOk heap' rests'
      ∧ ∀ r, Pending heap rests r ↔ r = (ofLex top).1 ∨ Pending heap' rests' r := by
  set i := (ofLex top).2 with hi
  have hlt : i < rests.length := by
    by_contra hcon
    rw [getD_eq_default _ _ (not_lt.mp hcon)] at hrest
    cases hrest
  have hmem : next :: rest ∈ rests := by
    rw [← hrest, getD_eq_getElem _ _ hlt]
    exact getElem_mem hlt
  obtain ⟨hnext, hsorted⟩ := pairwise_cons.mp (h.sorted _ hmem)
  have hget : ∀ j, (rests.set i rest).getD j [] = if i = j then rest else rests.getD j [] := by
    intro j
    by_cases hij : i = j
    · subst hij
      simp [hlt]
    · simp [hij, getD_eq_getElem?_getD]
  refine ⟨⟨fun l hl => ?_, fun x hx r hr => ?_, fun j hj => ?_⟩, fun r => ?_⟩
  · rcases mem_or_eq_of_mem_set hl with hl | rfl
    · exact h.sorted l hl
    · exact hsorted
  · rcases mem_cons.mp hx with rfl | hx
    · rw [hget] at hr
      simp only [ofLex_toLex, if_true] at hr
      exact hnext r hr
    · rw [hget] at hr
      have hx' := mem_of_mem_erase hx
      refine h.first x hx' r ?_
      split at hr
      next hij =>
        rw [← hij, hrest]
        exact .tail _ hr
      next => exact hr
  · rw [hget] at hj
    split at hj
    next hij => exact ⟨next, hij ▸ .head _⟩
    next hij =>
      obtain ⟨r, hr⟩ := h.covers j hj
      refine ⟨r, .tail _ ((mem_erase_of_ne fun he => hij ?_).mpr hr)⟩
      rw [hi, ← he]
      rfl
  · have hrests : (∃ l ∈ rests, r ∈ l) ↔ r = next ∨ ∃ l ∈ rests.set i rest, r ∈ l := by
      constructor
      · rintro ⟨l, hl, hr⟩
        obtain ⟨j, hj, rfl⟩ := mem_iff_getElem.mp hl
        by_cases hij : i = j
        · subst hij
          rw [← getD_eq_getElem _ [] hj, hrest] at hr
          rcases mem_cons.mp hr with hr | hr
          · exact .inl hr
          · exact .inr ⟨rest, mem_set hlt rest, hr⟩
        · refine .inr ⟨rests[j], mem_iff_getElem.mpr ⟨j, ?_, ?_⟩, hr⟩
          · rw [length_set]
            exact hj
          · exact getElem_set_ne hij _
      · rintro (rfl | ⟨l, hl, hr⟩)
        · exact ⟨_, hmem, .head _⟩
        · rcases mem_or_eq_of_mem_set hl with hl | rfl
          · exact ⟨l, hl, hr⟩
          · exact ⟨_, hmem, .tail _ hr⟩
    unfold Pending
    simp only [mem_heap_iff htop, mem_cons, exists_eq_or_imp, ofLex_toLex, hrests]
    rw [eq_comm, eq_comm (a := next)]
    constructor
    · rintro ((h | h) | h | h)
      exacts [Or.inl h, Or.inr (Or.inl (Or.inr h)), Or.inr (Or.inl (Or.inl h)), Or.inr (Or.inr h)]
    · rintro (h | (h | h) | h)
      exacts [Or.inl (Or.inl h), Or.inr (Or.inl h), Or.inl (Or.inr h), Or.inr (Or.inr h)]

theorem sum_length_set {next : Record} {rest : List Record} (h : rests.getD i [] = next :: rest) :
    ((rests.set i rest).map List.length).sum + 1 = (rests.map List.length).sum := by
  induction rests generalizing i with
  | nil => cases h
  | cons l rests ih =>
    cases i with
    | zero =>
      obtain rfl : l = next :: rest := h
      simp only [set_cons_zero, map_cons, sum_cons, length_cons]
      omega
    | succ i =>
      have := ih (i := i) h
      simp only [set_cons_succ, map_cons, sum_cons]
      omega

theorem length_erase_add_one (h : top ∈ heap) : (heap.erase top).length + 1 = heap.length := by
  have := length_pos_of_mem h
  rw [length_erase_of_mem h]
  omega

/-- **What the records' merge carries**: every live record once, in order. -/
theorem merged_records_spec (live : DocSet) (fuel : ℕ)
    {previous : Option Record} (h : HeapOk heap rests)
    (hprev : ∀ p, previous = some p → ∀ r, Pending heap rests r → p ≤ r)
    (hfuel : heap.length + (rests.map List.length).sum < fuel) :
    let rs := merged_records live fuel heap rests previous
    rs.Pairwise (· < ·) ∧ ∀ r, r ∈ rs ↔
      Pending heap rests r ∧ live.contains (ofLex r).2 = true ∧ previous ≠ some r := by
  induction fuel generalizing heap rests previous with
  | zero => exact absurd hfuel (by omega)
  | succ fuel ih =>
    unfold merged_records
    cases hmin : heap.min? with
    | none =>
      have hnil : heap = [] := min?_eq_none_iff.mp hmin
      have hpop : pop heap = none := by rw [pop, hmin]; rfl
      rw [hpop]
      refine ⟨.nil, fun r => ⟨fun hr => (by cases hr), ?_⟩⟩
      rintro ⟨⟨top, htop, -⟩ | ⟨rest, hrest, hr⟩, -⟩
      · rw [hnil] at htop
        cases htop
      · obtain ⟨i, hi, rfl⟩ := mem_iff_getElem.mp hrest
        rw [← getD_eq_getElem _ [] hi] at hr
        obtain ⟨x, hx⟩ := h.covers i (ne_nil_of_mem hr)
        rw [hnil] at hx
        cases hx
    | some top =>
      have hpop : pop heap = some (top, heap.erase top) := by rw [pop, hmin]; rfl
      obtain ⟨htop, hleast⟩ := min?_eq_some_iff.mp hmin
      have hle : ∀ r, Pending heap rests r → (ofLex top).1 ≤ r := fun r => h.top_le hleast
      have hlen := length_erase_add_one htop
      have hself : Pending heap rests (ofLex top).1 := .inl ⟨top, htop, rfl⟩
      rw [hpop]
      dsimp only
      set record := (ofLex top).1 with hrecord
      generalize hfresh : (live.contains (ofLex record).2 && decide (previous ≠ some record)) = fresh
      set previous' := if fresh = true then some record else previous with hprevious
      -- what is left after the top, whichever way its input goes on
      have hnext : ∀ (heap' : List (Record ×ₗ ℕ)) (rests' : List (List Record)),
          HeapOk heap' rests' →
          (∀ r, Pending heap rests r ↔ r = record ∨ Pending heap' rests' r) →
          heap'.length + (rests'.map List.length).sum < fuel →
          let rs := if fresh = true then record :: merged_records live fuel heap' rests' previous'
            else merged_records live fuel heap' rests' previous'
          rs.Pairwise (· < ·) ∧ ∀ r, r ∈ rs ↔
            Pending heap rests r ∧ live.contains (ofLex r).2 = true ∧ previous ≠ some r := by
        intro heap' rests' hok hpend hfuel'
        have hprev' : ∀ p, previous' = some p → ∀ r, Pending heap' rests' r → p ≤ r := by
          intro p hp r hr
          have hr' := (hpend r).mpr (.inr hr)
          rw [hprevious] at hp
          split at hp
          next => exact Option.some.inj hp ▸ hle r hr'
          next => exact hprev p hp r hr'
        obtain ⟨hs, hmem⟩ := ih hok hprev' hfuel'
        cases fresh with
        | false =>
          simp only [Bool.false_eq_true, if_false] at hprevious ⊢
          rw [hprevious] at hs hmem ⊢
          refine ⟨hs, fun r => (hmem r).trans ?_⟩
          rw [hpend r]
          refine ⟨fun hr => ⟨.inr hr.1, hr.2⟩, ?_⟩
          rintro ⟨rfl | hr, halive, hne⟩
          · rw [halive, Bool.true_and, decide_eq_false_iff_not, not_not] at hfresh
            exact absurd hfresh hne
          · exact ⟨hr, halive, hne⟩
        | true =>
          simp only [if_true] at hprevious ⊢
          rw [hprevious] at hs hmem ⊢
          rw [Bool.and_eq_true, decide_eq_true_eq] at hfresh
          refine ⟨pairwise_cons.mpr ⟨fun r hr => ?_, hs⟩, fun r => ?_⟩
          · obtain ⟨hp, -, hne⟩ := (hmem r).mp hr
            exact lt_of_le_of_ne (hle r ((hpend r).mpr (.inr hp))) fun he => hne (by rw [he])
          · rw [mem_cons, hmem]
            constructor
            · rintro (rfl | ⟨hp, halive, hne⟩)
              · exact ⟨hself, hfresh⟩
              · refine ⟨(hpend r).mpr (.inr hp), halive, fun hpr => hne ?_⟩
                have h₁ := hprev r hpr record hself
                have h₂ := hle r ((hpend r).mpr (.inr hp))
                rw [le_antisymm h₂ h₁]
            · rintro ⟨hp, halive, hne⟩
              rcases (hpend r).mp hp with rfl | hp
              · exact .inl rfl
              · by_cases hr : r = record
                · exact .inl hr
                · exact .inr ⟨hp, halive, fun he => hr (Option.some.inj he).symm⟩
      cases hrest : rests.getD (ofLex top).2 [] with
      | nil =>
        obtain ⟨hok, hpend⟩ := h.drop htop hrest
        exact hnext _ _ hok hpend (by omega)
      | cons next rest =>
        obtain ⟨hok, hpend⟩ := h.advance htop hrest
        refine hnext _ _ hok hpend ?_
        have := sum_length_set hrest
        rw [length_cons]
        omega

/-! ## The whole merge -/

/-- A term's live documents across the inputs, in range order. -/
def live_docs (inputs : List Contents) (live : DocSet) (term : Bytes) : List ℕ :=
  inputs.flatMap fun c => (docsOf c.terms term).filter live.contains

/-- Ranges disjoint and ascending. -/
def Ascending (inputs : List Contents) : Prop :=
  inputs.Pairwise fun a b => a.last < b.first

theorem wholly_live_spec {c : Contents} (h : wholly_live live c = true) {d : ℕ}
    (hd : c.first ≤ d ∧ d ≤ c.last) : live.contains d = true := by
  have hcount := of_decide_eq_true h
  have hfirst := c.first_le
  have hlast := c.last_lt
  rcases lt_or_ge (c.last + 1) docLimit with _ | _
  · rw [min_eq_left (by omega), show c.last + 1 = c.first + (c.last - c.first + 1) by omega] at hcount
    exact (live.count_eq_length_iff _ _).mp hcount d hd.1 (by omega)
  · -- no live set reaches the last DocId there is
    rw [min_eq_right (by omega), show docLimit - 1 = c.first + (c.last - c.first) by omega] at hcount
    have := live.count_le c.first (c.last - c.first)
    omega

theorem start_ok (live : DocSet) (c : Contents) :
    (Input.start live c).Ok live ∧ (Input.start live c).left = c.terms := by
  have hleft : (Input.start live c).left = c.terms := Input.left_next _
  refine ⟨⟨hleft ▸ c.sorted, ?_, fun hw p hp d hd => ?_⟩, hleft⟩
  · unfold Input.start Input.next
    cases hterms : c.terms with
    | nil => exact fun _ => rfl
    | cons p _ => exact nofun
  · rw [hleft] at hp
    have hw' : wholly_live live c = true := (Input.whole_next _).symm.trans hw
    exact wholly_live_spec hw' (c.docs_within p hp d hd)

theorem mem_docsOf {d : ℕ} (h : d ∈ docsOf terms t) : ∃ p ∈ terms, p.1 = t ∧ d ∈ p.2 := by
  unfold docsOf at h
  cases hl : terms.lookup t with
  | none =>
    rw [hl] at h
    cases h
  | some ds =>
    rw [hl] at h
    obtain ⟨_, _, hsplit, -⟩ := lookup_eq_some_iff.mp hl
    exact ⟨(t, ds), by rw [hsplit]; simp, rfl, h⟩

theorem docsOf_of_mem
    (hs : terms.Pairwise fun p q => p.1 < q.1) {ds : List ℕ} (h : (t, ds) ∈ terms) :
    docsOf terms t = ds := by
  induction terms with
  | nil => cases h
  | cons p terms ih =>
    obtain ⟨t', _⟩ := p
    obtain ⟨hp, hs'⟩ := pairwise_cons.mp hs
    rcases mem_cons.mp h with heq | hmem
    · cases heq
      exact docsOf_cons_self ..
    · have hne : t ≠ t' := (hp _ hmem).ne'
      rw [docsOf_cons_of_ne hne, ih hs' hmem]

/-- A term's live documents are in order and in range. -/
theorem live_docs_ok {inputs : List Contents} (hasc : Ascending inputs)
    {first last : ℕ} (hrange : ∀ c ∈ inputs, first ≤ c.first ∧ c.last ≤ last) (t : Bytes) :
    (live_docs inputs live t).Pairwise (· < ·)
      ∧ ∀ d ∈ live_docs inputs live t, first ≤ d ∧ d ≤ last := by
  have hdoc : ∀ c : Contents, (docsOf c.terms t).Pairwise (· < ·)
      ∧ ∀ d ∈ docsOf c.terms t, c.first ≤ d ∧ d ≤ c.last := by
    intro c
    refine ⟨?_, fun d hd => ?_⟩
    · unfold docsOf
      cases hl : c.terms.lookup t with
      | none => exact .nil
      | some ds =>
        obtain ⟨_, _, hsplit, -⟩ := lookup_eq_some_iff.mp hl
        exact c.docs_sorted (t, ds) (by rw [hsplit]; simp)
    · obtain ⟨p, hp, -, hd⟩ := mem_docsOf hd
      exact c.docs_within p hp d hd
  constructor
  · refine pairwise_flatMap.mpr ⟨fun c _ => (hdoc c).1.filter _, ?_⟩
    refine hasc.imp fun {a b} hab d hd e he => ?_
    have h₁ := (hdoc a).2 d (mem_filter.mp hd).1
    have h₂ := (hdoc b).2 e (mem_filter.mp he).1
    omega
  · intro d hd
    obtain ⟨c, hc, hd⟩ := mem_flatMap.mp hd
    have h₁ := (hdoc c).2 d (mem_filter.mp hd).1
    have h₂ := hrange c hc
    omega

theorem mem_first_records {k : ℕ} {ls : List (List Record)} :
    top ∈ first_records k ls ↔ ∃ j r rest, ls[j]? = some (r :: rest) ∧ top = toLex (r, k + j) := by
  induction ls generalizing k with
  | nil => simp [first_records]
  | cons l ls ih =>
    have htail : (∃ j r rest, ls[j]? = some (r :: rest) ∧ top = toLex (r, k + 1 + j))
        ↔ ∃ j r rest, (l :: ls)[j + 1]? = some (r :: rest) ∧ top = toLex (r, k + (j + 1)) := by
      simp only [getElem?_cons_succ]
      refine exists_congr fun j => ?_
      rw [show k + 1 + j = k + (j + 1) by omega]
    cases l with
    | nil =>
      rw [first_records, ih, htail]
      refine ⟨fun ⟨j, h⟩ => ⟨j + 1, h⟩, fun ⟨j, h⟩ => ?_⟩
      cases j with
      | zero =>
        obtain ⟨r, rest, h, -⟩ := h
        simp at h
      | succ j => exact ⟨j, h⟩
    | cons r rest =>
      rw [first_records, mem_cons, ih, htail]
      constructor
      · rintro (rfl | ⟨j, h⟩)
        · exact ⟨0, r, rest, rfl, rfl⟩
        · exact ⟨j + 1, h⟩
      · rintro ⟨j, h⟩
        cases j with
        | zero =>
          obtain ⟨_, _, h, rfl⟩ := h
          simp at h
          exact .inl (by rw [h.1]; rfl)
        | succ j => exact .inr ⟨j, h⟩

/-- The heap a merge starts with. -/
theorem first_records_ok {ls : List (List Record)} (hs : ∀ l ∈ ls, l.Pairwise (· < ·)) :
    HeapOk (first_records 0 ls) (ls.map List.tail)
      ∧ ∀ r, Pending (first_records 0 ls) (ls.map List.tail) r ↔ ∃ l ∈ ls, r ∈ l := by
  have hget : ∀ i, (ls.map List.tail).getD i [] = (ls.getD i []).tail := by
    intro i
    rw [getD_eq_getElem?_getD, getD_eq_getElem?_getD, getElem?_map]
    cases ls[i]? <;> rfl
  refine ⟨⟨fun l hl => ?_, fun top htop r hr => ?_, fun i hi => ?_⟩, fun r => ?_⟩
  · obtain ⟨l', hl', rfl⟩ := mem_map.mp hl
    exact (hs l' hl').sublist (tail_sublist l')
  · obtain ⟨j, x, rest, hj, rfl⟩ := mem_first_records.mp htop
    rw [hget, ofLex_toLex, zero_add, getD_eq_getElem?_getD, hj] at hr
    exact (pairwise_cons.mp (hs _ (mem_of_getElem? hj))).1 r hr
  · rw [hget, getD_eq_getElem?_getD] at hi
    match hl : ls[i]? with
    | none =>
      rw [hl] at hi
      exact absurd rfl hi
    | some [] =>
      rw [hl] at hi
      exact absurd rfl hi
    | some (r :: rest) =>
      exact ⟨r, mem_first_records.mpr ⟨i, r, rest, hl, by rw [zero_add]⟩⟩
  · unfold Pending
    constructor
    · rintro (⟨top, htop, rfl⟩ | ⟨l, hl, hr⟩)
      · obtain ⟨j, x, rest, hj, rfl⟩ := mem_first_records.mp htop
        exact ⟨_, mem_of_getElem? hj, .head _⟩
      · obtain ⟨l', hl', rfl⟩ := mem_map.mp hl
        exact ⟨l', hl', mem_of_mem_tail hr⟩
    · rintro ⟨l, hl, hr⟩
      obtain ⟨j, hj⟩ := mem_iff_getElem?.mp hl
      cases l with
      | nil => cases hr
      | cons x rest =>
        rcases mem_cons.mp hr with rfl | hr
        · exact .inl ⟨_, mem_first_records.mpr ⟨j, r, rest, hj, rfl⟩, rfl⟩
        · exact .inr ⟨rest, mem_map.mpr ⟨_, hl, rfl⟩, hr⟩

theorem length_first_records (k : ℕ) (ls : List (List Record)) :
    (first_records k ls).length + ((ls.map List.tail).map List.length).sum
      = (ls.map List.length).sum := by
  induction ls generalizing k with
  | nil => rfl
  | cons l ls ih =>
    have := ih (k + 1)
    cases l with
    | nil => simpa [first_records] using this
    | cons r _ =>
      simp only [first_records, length_cons, map_cons, sum_cons, tail_cons]
      omega

/-- The terms and the records a merge of `inputs` writes. -/
theorem merged_ok (inputs : List Contents) (live : DocSet) :
    let starts := inputs.map (Input.start live)
    let ps := merged_terms live (weight starts + 1) starts
      (Tournament.new inputs.length (before starts))
    let records := inputs.map Contents.records
    let rs := merged_records live ((records.map List.length).sum + 1) (first_records 0 records)
      (records.map List.tail) none
    ps.Pairwise (fun p q => p.1 < q.1)
      ∧ (∀ t ds, (t, ds) ∈ ps ↔ ds ≠ [] ∧ ds = live_docs inputs live t)
      ∧ rs.Pairwise (· < ·)
      ∧ ∀ r, r ∈ rs ↔ (∃ c ∈ inputs, r ∈ c.records) ∧ live.contains (ofLex r).2 = true := by
  intro starts ps records rs
  have hok : ∀ c ∈ starts, c.Ok live := fun c hc => by
    obtain ⟨c', -, rfl⟩ := mem_map.mp hc
    exact (start_ok live c').1
  have htree : Standing starts (Tournament.new inputs.length (before starts)) := by
    unfold Standing
    rw [length_map]
    exact Tournament.new_sound (decides_before starts) inputs.length
  obtain ⟨h₁, -, h₃⟩ := merged_terms_spec (weight starts + 1) hok htree (Nat.lt_succ_self _)
  have hdocs : ∀ t, starts.flatMap (Input.live_docs live t) = live_docs inputs live t := by
    intro t
    rw [flatMap_map]
    exact flatMap_congr fun c _ => by rw [Input.live_docs, (start_ok live c).2]
  have hsorted : ∀ l ∈ records, l.Pairwise (· < ·) := fun l hl => by
    obtain ⟨c, -, rfl⟩ := mem_map.mp hl
    exact c.records_sorted
  obtain ⟨hheap, hpend⟩ := first_records_ok hsorted
  have hnone : ∀ p, (none : Option Record) = some p →
      ∀ r, Pending (first_records 0 records) (records.map List.tail) r → p ≤ r :=
    nofun
  obtain ⟨h₄, h₅⟩ := merged_records_spec live ((records.map List.length).sum + 1) hheap hnone
    (by rw [length_first_records]; exact Nat.lt_succ_self _)
  refine ⟨h₁, fun t ds => ?_, h₄, fun r => ?_⟩
  · rw [h₃, hdocs]
  · rw [h₅, hpend]
    simp only [records, mem_map, exists_exists_and_eq_and, ne_eq, reduceCtorEq,
      not_false_eq_true, and_true]

/-- What a dictionary must hold of the inputs: the terms with a live document,
in order, each with its live documents in range order. -/
structure Purged (inputs : List Contents) (live : DocSet) (terms : List (Bytes × List ℕ)) :
    Prop where
  sorted : terms.Pairwise fun p q => p.1 < q.1
  mem_iff : ∀ t ds, (t, ds) ∈ terms ↔ ds ≠ [] ∧ ds = live_docs inputs live t

/-- What a dictionary and records must hold of the inputs together: every live
pair of a term and a document, and nothing about a dead one. -/
structure Carried (fingerprint : Bytes → ℕ) (inputs : List Contents) (live : DocSet)
    (terms : List (Bytes × List ℕ)) (records : List Record) : Prop where
  sorted : terms.Pairwise fun p q => p.1 < q.1
  records_sorted : records.Pairwise (· < ·)
  /-- A live pair of a dictionary is in the dictionary or the records. -/
  dictionary : ∀ t d, live.contains d = true → (∃ c ∈ inputs, d ∈ docsOf c.terms t) →
    d ∈ docsOf terms t ∨ toLex (fingerprint t, d) ∈ records
  /-- A live record stays one. -/
  carried : ∀ c ∈ inputs, ∀ r ∈ c.records, live.contains (ofLex r).2 = true → r ∈ records
  alive : ∀ t, ∀ d ∈ docsOf terms t, live.contains d = true
  records_alive : ∀ r ∈ records, live.contains (ofLex r).2 = true

section

variable {fingerprint : Bytes → ℕ} {inputs : List Contents} {live : DocSet} {first last : ℕ}

theorem mem_live_docs {t : Bytes} {d : ℕ} :
    d ∈ live_docs inputs live t
      ↔ (∃ c ∈ inputs, d ∈ docsOf c.terms t) ∧ live.contains d = true := by
  simp only [live_docs, mem_flatMap, mem_filter]
  constructor
  · rintro ⟨c, hc, hd, hl⟩
    exact ⟨⟨c, hc, hd⟩, hl⟩
  · rintro ⟨⟨c, hc, hd⟩, hl⟩
    exact ⟨c, hc, hd, hl⟩

/-- The end of a merge, once it is known which records it carries. -/
def write_records (rs : List Record) (removed : ℕ) (w : Draft) :
    Except WriteError (Draft × Sizes) := do
  let w ← rs.foldlM (fun w r => w.push_record (ofLex r).1 (ofLex r).2) w
  let w ← w.finish
  .ok (w, { records_added := w.records.length - rs.length, records_removed := removed })

theorem write_records_eq {rs : List Record} {removed : ℕ} {w w₁ : Draft}
    (hfold : rs.foldlM (fun (w : Draft) r => w.push_record (ofLex r).1 (ofLex r).2) w = .ok w₁) :
    write_records rs removed w = w₁.finish.map fun w₂ =>
      (w₂, { records_added := w₂.records.length - rs.length, records_removed := removed }) := by
  unfold write_records
  rw [hfold]
  show w₁.finish.bind _ = _
  cases w₁.finish with
  | error e => rfl
  | ok w₂ => rfl

/-- The merge in two steps: the writer takes every term, then the records. -/
theorem stream_eq (fingerprint : Bytes → ℕ) (live : DocSet) (hasc : Ascending inputs)
    (hrange : ∀ c ∈ inputs, first ≤ c.first ∧ c.last ≤ last) {w : Draft}
    (hw : w.first = first ∧ w.last = last ∧ w.pushed = 0)
    (hopen : ∀ s, w.singles = some s → s.sealed = false) :
    ∃ (ps : List (Bytes × List ℕ)) (rs : List Record), Purged inputs live ps
      ∧ rs.Pairwise (· < ·)
      ∧ (∀ r, r ∈ rs ↔ (∃ c ∈ inputs, r ∈ c.records) ∧ live.contains (ofLex r).2 = true)
      ∧ (∀ p ∈ ps, Pushable first last p.2)
      ∧ ∃ removed, stream fingerprint inputs live w
          = write_records rs removed (w.pushed_terms fingerprint ps) := by
  obtain ⟨h₁, h₂, h₃, h₄⟩ := merged_ok inputs live
  set starts := inputs.map (Input.start live) with hstarts
  set ps := merged_terms live (weight starts + 1) starts
    (Tournament.new inputs.length (before starts)) with hps
  set records := inputs.map Contents.records with hrecords
  set rs := merged_records live ((records.map List.length).sum + 1) (first_records 0 records)
    (records.map List.tail) none with hrs
  have hpush : ∀ p ∈ ps, Pushable first last p.2 := by
    intro p hp
    obtain ⟨hne, hdocs⟩ := (h₂ p.1 p.2).mp hp
    obtain ⟨hs, hin⟩ := live_docs_ok hasc hrange p.1
    exact ⟨hne, hdocs ▸ hs, hdocs ▸ hin⟩
  have hterms : merge_terms fingerprint live (weight starts + 1) starts
      (Tournament.new inputs.length (before starts)) w = .ok (w.pushed_terms fingerprint ps) := by
    rw [merge_terms_eq]
    refine Draft.pushAll_eq fingerprint hopen h₁ (fun p _ hpos => absurd hpos (by omega)) ?_
    rw [hw.1, hw.2.1]
    exact hpush
  obtain ⟨removed, hrec⟩ := merge_records_eq live ((records.map List.length).sum + 1)
    (first_records 0 records) (records.map List.tail) none (w.pushed_terms fingerprint ps) 0 0
  refine ⟨ps, rs, ⟨h₁, h₂⟩, h₃, h₄, hpush, removed, ?_⟩
  show (merge_terms fingerprint live (weight starts + 1) starts
    (Tournament.new inputs.length (before starts)) w).bind _ = _
  rw [hterms]
  show (merge_records live ((records.map List.length).sum + 1) (first_records 0 records)
    (records.map List.tail) none (w.pushed_terms fingerprint ps) 0 0).bind _ = _
  rw [hrec, ← hrs, zero_add, write_records]
  cases rs.foldlM (fun (w : Draft) r => w.push_record (ofLex r).1 (ofLex r).2)
      (w.pushed_terms fingerprint ps) with
  | error e => rfl
  | ok _ => rfl

/-- **A merge of dictionaries holds the live part of its inputs.** -/
theorem stream_dictionary (hasc : Ascending inputs)
    (hrange : ∀ c ∈ inputs, first ≤ c.first ∧ c.last ≤ last)
    (hcodec : ∀ c ∈ inputs, c.records = []) {w : Draft}
    (hw : Draft.build first last .dictionary = .ok w) :
    ∃ out sizes, stream fingerprint inputs live w = .ok (out, sizes)
      ∧ Purged inputs live out.terms ∧ out.records = [] := by
  obtain ⟨hinit, hterms, hsingles⟩ := Draft.build_spec hw
  have hnone : w.singles = none := hsingles
  obtain ⟨ps, rs, hp, -, hrs, -, _, hstream⟩ :=
    stream_eq fingerprint live hasc hrange hinit fun s hs => by rw [hnone] at hs; cases hs
  have hnil : rs = [] := eq_nil_iff_forall_not_mem.mpr fun r hr => by
    obtain ⟨⟨c, hc, hr⟩, -⟩ := (hrs r).mp hr
    rw [hcodec c hc] at hr
    cases hr
  have hfinish : (w.pushed_terms fingerprint ps).finish = .ok (w.pushed_terms fingerprint ps) := by
    simp [Draft.finish, Draft.seal_records, Draft.pushed_terms, hnone]
  rw [hnil, write_records_eq rfl, hfinish] at hstream
  refine ⟨w.pushed_terms fingerprint ps, _, hstream, ?_, ?_⟩
  · show Purged inputs live (w.terms ++ w.kept ps)
    rw [hterms, nil_append, Draft.kept, hnone]
    exact hp
  · simp [Draft.records, Draft.pushed_terms, hnone]

/-- The documents of a record are where they were. -/
theorem absolute_relative {r : Record} (h : first ≤ (ofLex r).2) :
    (toLex ((ofLex (Draft.relative first r)).1, first + (ofLex (Draft.relative first r)).2) : Record)
      = r := by
  show toLex ((ofLex r).1, first + ((ofLex r).2 - first)) = r
  rw [Nat.add_sub_cancel' h]
  rfl

theorem relative_absolute (r : Record) :
    Draft.relative first (toLex ((ofLex r).1, first + (ofLex r).2)) = r := by
  show toLex ((ofLex r).1, first + (ofLex r).2 - first) = r
  rw [Nat.add_sub_cancel_left]
  rfl

/-- **A merge of fingerprint segments loses no live pair**, and refuses only a
section of records too long for its offsets. -/
theorem stream_fingerprint (hasc : Ascending inputs)
    (hrange : ∀ c ∈ inputs, first ≤ c.first ∧ c.last ≤ last) {w : Draft}
    (hw : Draft.build first last .fingerprint = .ok w) :
    ∃ terms records, Carried fingerprint inputs live terms records
      ∧ ((∃ out sizes, stream fingerprint inputs live w = .ok (out, sizes)
            ∧ out.terms = terms ∧ out.records = records)
          ∨ stream fingerprint inputs live w = .error .recordLength
            ∧ 2 ^ 32 ≤ (Encoder.of (records.map (Draft.relative first))).len) := by
  obtain ⟨hinit, hterms, hsingles⟩ := Draft.build_spec hw
  have hsome : w.singles = some Singles.new := hsingles
  obtain ⟨ps, rs, hp, hsorted, hrs, hpush, _, hstream⟩ :=
    stream_eq fingerprint live hasc hrange hinit fun s hs => by rw [hsome] at hs; cases hs; rfl
  set w₁ := w.pushed_terms fingerprint ps with hw₁
  have hfirst : w₁.first = first := hinit.1
  have hlast : w₁.last = last := hinit.2.1
  have hs₁ : w₁.singles
      = some { Singles.new with pending := Draft.single_records fingerprint first ps } := by
    rw [hw₁, Draft.pushed_terms, hsome, hinit.1]
    rfl
  have hready : Draft.Ready { Singles.new with pending := Draft.single_records fingerprint first ps } :=
    ⟨⟨.nil, nofun, nofun,
      nofun⟩, fun _ => rfl, rfl⟩
  have hin : ∀ r ∈ rs, w₁.first ≤ (ofLex r).2 ∧ (ofLex r).2 ≤ w₁.last := fun r hr => by
    obtain ⟨⟨c, hc, hr⟩, -⟩ := (hrs r).mp hr
    have h₁ := c.records_within r hr
    have h₂ := hrange c hc
    omega
  obtain ⟨s₂, hfold, hready₂, hholds⟩ := Draft.pushRecords_ok hs₁ hready hsorted hin
    nofun
  obtain ⟨s₃, hfinish, hsorted₃, hmem⟩ := Draft.finish_eq (w := { w₁ with singles := some s₂ })
    rfl hready₂
  rw [hfirst] at hholds
  rw [write_records_eq hfold] at hstream
  -- what ends up among the records: the single-document terms' and the carried ones
  have hfinal : ∀ x, x ∈ s₃.encoder.records ↔
      x ∈ Draft.single_records fingerprint first ps ∨ ∃ r ∈ rs, x = Draft.relative first r := by
    intro x
    rw [hmem, hholds]
    refine or_congr_left ⟨fun hx => hx.resolve_left fun hx => (by cases hx), .inr⟩
  set records := s₃.encoder.records.map fun r => toLex ((ofLex r).1, first + (ofLex r).2)
    with hrecords
  have hback : records.map (Draft.relative first) = s₃.encoder.records := by
    rw [hrecords, map_map]
    exact (map_congr_left fun r _ => relative_absolute r).trans (map_id _)
  have hterms₁ : w₁.terms = ps.filter fun p => decide (p.2.length ≠ 1) := by
    rw [hw₁, Draft.pushed_terms, hterms, nil_append, Draft.kept, hsome]
    rfl
  have hmemrec : ∀ r, r ∈ records ↔ ∃ x ∈ s₃.encoder.records,
      (toLex ((ofLex x).1, first + (ofLex x).2) : Record) = r := fun r => mem_map
  refine ⟨w₁.terms, records, ⟨?_, ?_, fun t d hd hc => ?_, fun c hc r hr hl => ?_, fun t d hd => ?_,
    fun r hr => ?_⟩, ?_⟩
  · rw [hterms₁]
    exact hp.sorted.filter _
  · refine pairwise_map.mpr (hsorted₃.imp fun {a b} hab => ?_)
    rw [Prod.Lex.lt_iff] at hab ⊢
    exact hab.imp id fun h => ⟨h.1, Nat.add_lt_add_left h.2 first⟩
  · -- a live document's term was pushed, into the dictionary or as a record
    have hlive : d ∈ live_docs inputs live t := mem_live_docs.mpr ⟨hc, hd⟩
    have hmem' : (t, live_docs inputs live t) ∈ ps :=
      (hp.mem_iff t _).mpr ⟨ne_nil_of_mem hlive, rfl⟩
    by_cases hone : (live_docs inputs live t).length = 1
    · obtain ⟨d', hd'⟩ := length_eq_one_iff.mp hone
      obtain rfl : d = d' := by
        rw [hd'] at hlive
        exact mem_singleton.mp hlive
      have hge := ((hpush _ hmem').within d hlive).1
      refine .inr ((hmemrec _).mpr ⟨toLex (fingerprint t, d - first), ?_, ?_⟩)
      · refine (hfinal _).mpr (.inl (mem_map.mpr ⟨_, mem_filter.mpr
          ⟨hmem', decide_eq_true hone⟩, ?_⟩))
        rw [hd']
        rfl
      · show toLex (fingerprint t, first + (d - first)) = _
        rw [Nat.add_sub_cancel' hge]
    · refine .inl ?_
      have hkept : (t, live_docs inputs live t) ∈ w₁.terms := by
        rw [hterms₁]
        exact mem_filter.mpr ⟨hmem', decide_eq_true hone⟩
      rw [docsOf_of_mem (by rw [hterms₁]; exact hp.sorted.filter _) hkept]
      exact hlive
  · have hrs' : r ∈ rs := (hrs r).mpr ⟨⟨c, hc, hr⟩, hl⟩
    exact (hmemrec r).mpr ⟨Draft.relative first r, (hfinal _).mpr (.inr ⟨r, hrs', rfl⟩),
      absolute_relative (hfirst ▸ (hin r hrs').1)⟩
  · obtain ⟨p, hpm, -, hdp⟩ := mem_docsOf hd
    rw [hterms₁] at hpm
    obtain ⟨-, hdocs⟩ := (hp.mem_iff p.1 p.2).mp (mem_filter.mp hpm).1
    rw [hdocs] at hdp
    exact (mem_live_docs.mp hdp).2
  · obtain ⟨x, hx, rfl⟩ := (hmemrec r).mp hr
    rcases (hfinal x).mp hx with hx | ⟨r', hr', rfl⟩
    · obtain ⟨p, hpm, rfl⟩ := mem_map.mp hx
      obtain ⟨hpm, hone⟩ := mem_filter.mp hpm
      obtain ⟨d, hd⟩ := length_eq_one_iff.mp (of_decide_eq_true hone)
      obtain ⟨-, hdocs⟩ := (hp.mem_iff p.1 p.2).mp hpm
      have hmem' : d ∈ p.2 := by rw [hd]; exact mem_singleton.mpr rfl
      have hge := ((hpush p hpm).within d hmem').1
      show live.contains (first + (p.2.headD 0 - first)) = true
      rw [hd, headD_cons, Nat.add_sub_cancel' hge]
      rw [hdocs] at hmem'
      exact (mem_live_docs.mp hmem').2
    · rw [absolute_relative (hfirst ▸ (hin r' hr').1)]
      exact ((hrs r').mp hr').2
  · rcases hfinish with hfinish | ⟨hfinish, hlen⟩
    · rw [hfinish] at hstream
      refine .inl ⟨_, _, hstream, rfl, ?_⟩
      rw [Draft.records, hrecords]
      show s₃.encoder.records.map (fun r => toLex ((ofLex r).1, w₁.first + (ofLex r).2)) = _
      rw [hfirst]
    · rw [hfinish] at hstream
      exact .inr ⟨hstream, by rw [hback]; exact hlen⟩

/-- **Merging preserves the index.** Of dictionaries it keeps exactly the terms
with a live document, each with the concatenation of its live documents; of
fingerprint segments it keeps every live pair of a term and a document, and
no record of a dead one. The range is any that covers the inputs. -/
theorem stream_preserves (hasc : Ascending inputs)
    (hrange : ∀ c ∈ inputs, first ≤ c.first ∧ c.last ≤ last) :
    ((∀ c ∈ inputs, c.records = []) →
      ∀ w, Draft.build first last .dictionary = .ok w →
        ∃ out sizes, stream fingerprint inputs live w = .ok (out, sizes)
          ∧ Purged inputs live out.terms ∧ out.records = [])
      ∧ ∀ w, Draft.build first last .fingerprint = .ok w →
        ∃ terms records, Carried fingerprint inputs live terms records
          ∧ ((∃ out sizes, stream fingerprint inputs live w = .ok (out, sizes)
                ∧ out.terms = terms ∧ out.records = records)
              ∨ stream fingerprint inputs live w = .error .recordLength
                ∧ 2 ^ 32 ≤ (Encoder.of (records.map (Draft.relative first))).len) :=
  ⟨fun hcodec _ hw => stream_dictionary hasc hrange hcodec hw,
    fun _ hw => stream_fingerprint hasc hrange hw⟩

/-- Two adjacent segments that share a term. -/
def samples : List Contents :=
  [{ first := 0, last := 1, terms := [([97], [0, 1]), ([98], [1])], records := []
     first_le := by decide, last_lt := by decide, sorted := by decide, docs_ne_nil := by decide
     docs_sorted := by decide, docs_within := by decide, records_sorted := .nil
     records_within := nofun },
   { first := 2, last := 2, terms := [([97], [2])], records := []
     first_le := by decide, last_lt := by decide, sorted := by decide, docs_ne_nil := by decide
     docs_sorted := by decide, docs_within := by decide, records_sorted := .nil
     records_within := nofun }]

theorem samples_stream_preserves :
    ∃ w out sizes, Draft.build 0 2 .dictionary = .ok w
      ∧ stream List.length samples (DocSet.new 3 (by decide) [0, 2]) w = .ok (out, sizes)
      ∧ Purged samples (DocSet.new 3 (by decide) [0, 2]) out.terms ∧ out.records = [] := by
  have hasc : Ascending samples := by
    unfold Ascending samples
    decide
  have hrange : ∀ c ∈ samples, 0 ≤ c.first ∧ c.last ≤ 2 := by
    intro c hc
    simp only [samples, mem_cons, not_mem_nil, or_false] at hc
    rcases hc with rfl | rfl <;> decide
  have hcodec : ∀ c ∈ samples, c.records = [] := by
    intro c hc
    simp only [samples, mem_cons, not_mem_nil, or_false] at hc
    rcases hc with rfl | rfl <;> rfl
  obtain ⟨out, sizes, h⟩ := (@stream_preserves List.length samples
    (DocSet.new 3 (by decide) [0, 2]) 0 2 hasc hrange).1 hcodec _ rfl
  exact ⟨_, out, sizes, rfl, h⟩

end

end Merge

end Ferret
