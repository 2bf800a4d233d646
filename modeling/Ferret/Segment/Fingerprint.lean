import Ferret.Lib.Chunks
import Ferret.Segment.Read

/-!
# Restart blocks of fingerprint records

The fingerprint codec lays its records out in blocks of `RECORD_BLOCK`. A
block begins with its first record in full; every later record is the step
from the fingerprint before it, and its document. The index has the first
fingerprint of each block and where the block begins.

`Encoder.Laid` is what an encoder has laid out after any number of records,
cut into blocks, and every record pushed keeps it. From a finished layout
`FingerprintIndex.parse` gets back the place of each block, and
`decode_block` the records in it.
-/

namespace Ferret

open List

/-! ## The layout -/

namespace Encoder

/-- The fingerprint a block begins with. -/
def first_of (g : List Record) : ℕ := (g.head?.map fun r => (ofLex r).1).getD 0

/-- Records after one whose fingerprint is `previous`. -/
def steps_bytes (previous : ℕ) : List Record → Bytes
  | [] => []
  | r :: rest =>
    put ((ofLex r).1 - previous) ++ (put (ofLex r).2 ++ steps_bytes (ofLex r).1 rest)

/-- The records of a block. -/
def block_bytes : List Record → Bytes
  | [] => []
  | r :: rest => toLe 4 (ofLex r).1 ++ (toLe 4 (ofLex r).2 ++ steps_bytes (ofLex r).1 rest)

/-- Where blocks laid out from `start` on begin, with their first
fingerprints. -/
def places : ℕ → List (List Record) → List (ℕ × ℕ)
  | _, [] => []
  | start, g :: gs => (first_of g, start) :: places (start + (block_bytes g).length) gs

/-- The index entries of some places. -/
def index_bytes (ps : List (ℕ × ℕ)) : Bytes := ps.flatMap fun p => toLe 4 p.1 ++ toLe 4 p.2

theorem steps_bytes_append (previous : ℕ) (g : List Record) (r : Record) :
    steps_bytes previous (g ++ [r]) = steps_bytes previous g
      ++ (put ((ofLex r).1 - (g.getLast?.map fun r => (ofLex r).1).getD previous)
        ++ put (ofLex r).2) := by
  induction g generalizing previous with
  | nil => simp [steps_bytes]
  | cons x g ih =>
    rw [cons_append, steps_bytes, ih, steps_bytes]
    rw [show ((x :: g).getLast?.map fun r => (ofLex r).1).getD previous
        = (g.getLast?.map fun r => (ofLex r).1).getD (ofLex x).1 by
      cases g <;> simp [getLast?_eq_some_getLast]]
    simp only [append_assoc]

/-- A record is laid out after the last of its block. -/
theorem block_bytes_append {last : Record} (hg : g.getLast? = some last)
    (r : Record) : block_bytes (g ++ [r])
      = block_bytes g ++ (put ((ofLex r).1 - (ofLex last).1) ++ put (ofLex r).2) := by
  cases g with
  | nil => cases hg
  | cons x g =>
    rw [cons_append, block_bytes, steps_bytes_append, block_bytes]
    have hlast : (g.getLast?.map fun r => (ofLex r).1).getD (ofLex x).1 = (ofLex last).1 := by
      cases g with
      | nil =>
        obtain rfl : x = last := by simpa using hg
        rfl
      | cons y g =>
        rw [getLast?_cons_cons] at hg
        rw [hg]
        rfl
    rw [hlast]
    simp only [append_assoc]

theorem first_of_append (hg : g ≠ []) (r : Record) : first_of (g ++ [r]) = first_of g := by
  cases g with
  | nil => exact absurd rfl hg
  | cons x g => rfl

theorem places_append (start : ℕ) (gs : List (List Record)) (g : List Record) :
    places start (gs ++ [g])
      = places start gs ++ [(first_of g, start + (gs.flatMap block_bytes).length)] := by
  induction gs generalizing start with
  | nil => rfl
  | cons x gs ih =>
    rw [cons_append, places, ih, places, flatMap_cons, length_append, add_assoc, cons_append]

theorem index_bytes_append (ps qs : List (ℕ × ℕ)) :
    index_bytes (ps ++ qs) = index_bytes ps ++ index_bytes qs := flatMap_append

/-- **What an encoder has laid out**: some blocks, each full but perhaps the
last. -/
structure Laid (e : Encoder) (gs : List (List Record)) : Prop where
  records : e.records = gs.flatten
  bytes : e.bytes = gs.flatMap block_bytes
  index : e.index = index_bytes (places 0 gs)
  ne_nil : ∀ g ∈ gs, g ≠ []
  full : ∀ g ∈ gs.dropLast, g.length = RECORD_BLOCK
  in_block : ∀ g ∈ gs.getLast?, g.length = e.in_block ∧ e.in_block ≤ RECORD_BLOCK

theorem new_laid : new.Laid [] where
  records := rfl
  bytes := rfl
  index := rfl
  ne_nil := nofun
  full := nofun
  in_block := nofun

variable {e : Encoder} {gs init : List (List Record)} {g : List Record} {r : Record}

theorem Laid.length_records (h : e.Laid gs) : e.records.length = 0 ↔ gs = [] := by
  rw [h.records, length_eq_zero_iff, flatten_eq_nil_iff]
  refine ⟨fun hnil => ?_, fun hnil => by simp [hnil]⟩
  cases gs with
  | nil => rfl
  | cons g gs => exact absurd (hnil g (.head _)) (h.ne_nil g (.head _))

/-- Every block is full when the last is. -/
theorem Laid.all_full (h : e.Laid gs) (hnew : e.records.length = 0 ∨ e.in_block = RECORD_BLOCK) :
    ∀ g ∈ gs, g.length = RECORD_BLOCK := by
  rcases eq_nil_or_concat gs with rfl | ⟨_, g, rfl⟩
  · intro g hg
    cases hg
  · rw [concat_eq_append] at h ⊢
    intro x hx
    rcases mem_append.mp hx with hx | hx
    · exact h.full x (by rwa [dropLast_concat])
    · have hzero : e.records.length ≠ 0 := fun hz => by simpa using h.length_records.mp hz
      rw [mem_singleton.mp hx, (h.in_block g (by simp)).1]
      exact hnew.resolve_left hzero

theorem Laid.chunked (h : e.Laid gs) : Chunked RECORD_BLOCK gs := by
  rcases eq_nil_or_concat gs with rfl | ⟨_, g, rfl⟩
  · exact .nil
  · rw [concat_eq_append] at h ⊢
    have hfull := h.full
    rw [dropLast_concat] at hfull
    obtain ⟨hlen, hle⟩ := h.in_block g (by simp)
    exact .snoc hfull (h.ne_nil g (by simp)) (hlen.trans_le hle)

/-- A record in a block of its own. -/
theorem Laid.push_new (h : e.Laid gs) (hafter : e.records.getLast?.any (r ≤ ·) = false)
    (hnew : e.records.length = 0 ∨ e.in_block = RECORD_BLOCK) :
    (e.push r).Laid (gs ++ [[r]]) ∧ (e.push r).records = e.records ++ [r] := by
  have hpush : e.push r = {
      records := e.records ++ [r]
      bytes := e.bytes ++ toLe 4 (ofLex r).1 ++ toLe 4 (ofLex r).2
      index := e.index ++ toLe 4 (ofLex r).1 ++ toLe 4 e.len
      in_block := 1 } := by
    rw [push, if_neg (by rw [hafter]; exact Bool.false_ne_true), if_pos hnew]
  rw [hpush]
  refine ⟨?_, rfl⟩
  constructor
  · show e.records ++ [r] = _
    rw [h.records]
    simp
  · show e.bytes ++ toLe 4 (ofLex r).1 ++ toLe 4 (ofLex r).2 = _
    rw [h.bytes, flatMap_append]
    simp [block_bytes, steps_bytes]
  · show e.index ++ toLe 4 (ofLex r).1 ++ toLe 4 e.len = _
    rw [places_append, index_bytes_append, ← h.index, len, h.bytes]
    simp [index_bytes, first_of]
  · intro g hg
    rcases mem_append.mp hg with hg | hg
    · exact h.ne_nil g hg
    · rw [mem_singleton.mp hg]
      exact nofun
  · rw [dropLast_concat]
    exact h.all_full hnew
  · intro g hg
    rw [getLast?_concat, Option.mem_def, Option.some.injEq] at hg
    subst hg
    exact ⟨rfl, (by decide : 1 ≤ RECORD_BLOCK)⟩

/-- A record in a block that has others. -/
theorem Laid.push_more (h : e.Laid (init ++ [g])) (hafter : e.records.getLast?.any (r ≤ ·) = false)
    (hmore : e.in_block ≠ RECORD_BLOCK) :
    (e.push r).Laid (init ++ [g ++ [r]]) ∧ (e.push r).records = e.records ++ [r] := by
  have hzero : e.records.length ≠ 0 := fun hz => by simpa using h.length_records.mp hz
  have hg : g ≠ [] := h.ne_nil g (by simp)
  have hlast : g.getLast? = some (g.getLast hg) := getLast?_eq_some_getLast hg
  have hprevious : e.records.getLast? = some (g.getLast hg) := by
    rw [h.records, flatten_concat, getLast?_append, hlast, Option.some_or]
  have hpush : e.push r = { e with
      records := e.records ++ [r]
      bytes := e.bytes ++ put ((ofLex r).1 - (ofLex (g.getLast hg)).1) ++ put (ofLex r).2
      in_block := e.in_block + 1 } := by
    rw [push, if_neg (by rw [hafter]; exact Bool.false_ne_true), if_neg (by tauto), hprevious]
    rfl
  obtain ⟨hlen, _⟩ := h.in_block g (by simp)
  rw [hpush]
  refine ⟨?_, rfl⟩
  constructor
  · show e.records ++ [r] = _
    rw [h.records]
    simp
  · show e.bytes ++ put ((ofLex r).1 - (ofLex (g.getLast hg)).1) ++ put (ofLex r).2 = _
    rw [h.bytes, flatMap_append, flatMap_append]
    simp [block_bytes_append hlast]
  · show e.index = _
    rw [h.index, places_append, places_append, first_of_append hg]
  · intro x hx
    rcases mem_append.mp hx with hx | hx
    · exact h.ne_nil x (mem_append_left _ hx)
    · rw [mem_singleton.mp hx]
      simp
  · have hfull := h.full
    rw [dropLast_concat] at hfull ⊢
    exact hfull
  · intro x hx
    rw [getLast?_concat, Option.mem_def, Option.some.injEq] at hx
    subst hx
    refine ⟨?_, ?_⟩
    · rw [length_append, hlen]
      rfl
    · show e.in_block + 1 ≤ RECORD_BLOCK
      omega

/-- **A record that sorts after the others is laid out after them.** -/
theorem Laid.push (h : e.Laid gs) (hafter : e.records.getLast?.any (r ≤ ·) = false) :
    ∃ gs', (e.push r).Laid gs' ∧ (e.push r).records = e.records ++ [r] := by
  by_cases hnew : e.records.length = 0 ∨ e.in_block = RECORD_BLOCK
  · exact ⟨_, h.push_new hafter hnew⟩
  · rw [not_or, h.length_records] at hnew
    rcases eq_nil_or_concat gs with rfl | ⟨_, g, rfl⟩
    · exact absurd rfl hnew.1
    · rw [concat_eq_append] at h
      exact ⟨_, h.push_more hafter hnew.2⟩

/-- **Sorted records are laid out in blocks, none left out.** -/
theorem of_laid {rs : List Record} (hs : rs.Pairwise (· < ·)) :
    (Encoder.of rs).records = rs ∧ ∃ gs, (Encoder.of rs).Laid gs := by
  induction rs using List.reverseRecOn with
  | nil => exact ⟨rfl, [], new_laid⟩
  | append_singleton rs r ih =>
    obtain ⟨hrs, -, hlt⟩ := pairwise_append.mp hs
    obtain ⟨hrec, gs, h⟩ := ih hrs
    have hpush : Encoder.of (rs ++ [r]) = (Encoder.of rs).push r := by
      rw [Encoder.of, foldl_append]
      rfl
    have hafter : (Encoder.of rs).records.getLast?.any (r ≤ ·) = false := by
      rw [hrec]
      cases hlast : rs.getLast? with
      | none => rfl
      | some last =>
        have hmem := mem_of_getLast? hlast
        exact decide_eq_false (not_le.mpr (hlt last hmem r (mem_singleton_self r)))
    obtain ⟨gs', h', hrec'⟩ := h.push hafter
    rw [hpush]
    exact ⟨by rw [hrec', hrec], gs', h'⟩

theorem length_steps_bytes (previous : ℕ) (g : List Record) :
    g.length ≤ (steps_bytes previous g).length := by
  induction g generalizing previous with
  | nil => exact Nat.zero_le _
  | cons r g ih =>
    have := ih (ofLex r).1
    have hpos := length_pos_iff.mpr (put_ne_nil (ofLex r).2)
    rw [steps_bytes, length_append, length_append, length_cons]
    omega

/-- A block has the eight bytes of its first record, and some for each
other. -/
theorem length_block_bytes (hg : g ≠ []) :
    8 ≤ (block_bytes g).length ∧ g.length ≤ (block_bytes g).length := by
  cases g with
  | nil => exact absurd rfl hg
  | cons r g =>
    have := length_steps_bytes (ofLex r).1 g
    rw [block_bytes, length_append, length_append, length_toLe, length_toLe, length_cons]
    omega

theorem length_flatten_le (hne : ∀ g ∈ gs, g ≠ []) :
    gs.flatten.length ≤ (gs.flatMap block_bytes).length := by
  induction gs with
  | nil => exact Nat.zero_le _
  | cons g gs ih =>
    have hg := (length_block_bytes (hne g (.head _))).2
    have := ih fun x hx => hne x (.tail _ hx)
    rw [flatten_cons, flatMap_cons, length_append, length_append]
    omega

theorem length_index_bytes (ps : List (ℕ × ℕ)) : (index_bytes ps).length = ps.length * 8 :=
  length_flatMap_const (fun p => by simp) ps

theorem length_places (start : ℕ) (gs : List (List Record)) :
    (places start gs).length = gs.length := by
  induction gs generalizing start with
  | nil => rfl
  | cons g gs ih => rw [places, length_cons, ih, length_cons]

theorem map_fst_places (start : ℕ) (gs : List (List Record)) :
    (places start gs).map Prod.fst = gs.map first_of := by
  induction gs generalizing start with
  | nil => rfl
  | cons g gs ih => rw [places, map_cons, ih, map_cons]

/-- A block begins where those before it end. -/
theorem getElem?_places (start k : ℕ) (gs : List (List Record)) :
    ((places start gs).map Prod.snd)[k]? = if k < gs.length then
      some (start + ((gs.take k).flatMap block_bytes).length) else none := by
  induction gs generalizing start k with
  | nil => rfl
  | cons g gs ih =>
    rw [places, map_cons]
    cases k with
    | zero => simp
    | succ k =>
      rw [getElem?_cons_succ, ih, length_cons, take_succ_cons, flatMap_cons,
        length_append, add_assoc]
      simp only [Nat.add_lt_add_iff_right]

/-- The fingerprints and documents of records fit their fields: 32 bits for
the one, and no document past the span of the segment. -/
def InRange (span : ℕ) (rs : List Record) : Prop :=
  ∀ r ∈ rs, (ofLex r).1 < 2 ^ 32 ∧ (ofLex r).2 ≤ span

/-- **Blocks of sorted records in range**, short enough for the index. -/
structure Written (span : ℕ) (gs : List (List Record)) : Prop where
  span_lt : span < 2 ^ 32
  ne_nil : ∀ g ∈ gs, g ≠ []
  sorted : gs.flatten.Pairwise (· < ·)
  in_range : InRange span gs.flatten
  fits : (gs.flatMap block_bytes).length < 2 ^ 32

theorem first_of_mem (hg : g ≠ []) : ∃ r ∈ g, (ofLex r).1 = first_of g := by
  cases g with
  | nil => exact absurd rfl hg
  | cons r g => exact ⟨r, .head _, rfl⟩

theorem fst_le {a b : Record} (h : a < b) : (ofLex a).1 ≤ (ofLex b).1 := by
  rcases Prod.Lex.lt_iff.mp h with h | h
  · exact h.le
  · exact h.1.le

namespace Written

variable {span : ℕ}

theorem tail (h : Written span (g :: gs)) : Written span gs where
  span_lt := h.span_lt
  ne_nil := fun x hx => h.ne_nil x (.tail _ hx)
  sorted := by
    have := h.sorted
    rw [flatten_cons] at this
    exact (pairwise_append.mp this).2.1
  in_range := fun r hr => h.in_range r (by
    rw [flatten_cons]
    exact mem_append_right _ hr)
  fits := by
    have := h.fits
    rw [flatMap_cons, length_append] at this
    omega

/-- The fingerprint a block begins with is below those of later blocks. -/
theorem first_of_le (h : Written span (g :: gs)) {x : List Record} (hx : x ∈ gs) :
    first_of g ≤ first_of x := by
  obtain ⟨a, ha, hga⟩ := first_of_mem (h.ne_nil g (.head _))
  obtain ⟨b, hb, hxb⟩ := first_of_mem (h.ne_nil x (.tail _ hx))
  have hs := h.sorted
  rw [flatten_cons] at hs
  have hlt := (pairwise_append.mp hs).2.2 a ha b (mem_flatten_of_mem hx hb)
  rw [← hga, ← hxb]
  exact fst_le hlt

theorem first_of_lt (h : Written span gs) (hg : g ∈ gs) : first_of g < 2 ^ 32 := by
  obtain ⟨a, ha, hga⟩ := first_of_mem (h.ne_nil g hg)
  rw [← hga]
  exact (h.in_range a (mem_flatten_of_mem hg ha)).1

end Written

end Encoder

/-! ## The index -/

namespace FingerprintIndex

open Encoder

variable {span : ℕ} {gs : List (List Record)}

/-- **The loop of `parse` reads the places back.** -/
theorem parse_from_places {len : ℕ} (h : Written span gs) (hlen : len < 2 ^ 32)
    {b start previous : ℕ} {last : Option ℕ}
    (hstart : b = 0 ∧ start = previous ∨ 0 < b ∧ previous + 8 ≤ start)
    (hfit : start + (gs.flatMap block_bytes).length ≤ len)
    (hlast : ∀ x ∈ last, ∀ g ∈ gs, x ≤ first_of g) :
    parse_from len gs.length b (index_bytes (places start gs)) previous last
      = some (places start gs, []) := by
  induction gs generalizing b start previous last with
  | nil => rfl
  | cons g gs ih =>
    have h8 := (length_block_bytes (h.ne_nil g (.head _))).1
    have hfirst := h.first_of_lt (mem_cons_self (a := g))
    rw [flatMap_cons, length_append] at hfit
    have hbytes : index_bytes (places start (g :: gs)) = toLe 4 (first_of g) ++ (toLe 4 start
        ++ index_bytes (places (start + (block_bytes g).length) gs)) := by
      rw [places, index_bytes, flatMap_cons, append_assoc]
      rfl
    have hfp : u32_at (index_bytes (places start (g :: gs))) 0 = first_of g := by
      rw [hbytes, u32_at, slice_toLe_append_zero, ofLe_toLe _ _ (by norm_num; omega)]
    have hnext : u32_at (index_bytes (places start (g :: gs))) 4 = start := by
      rw [hbytes, u32_at, slice_toLe_append _ le_rfl, Nat.sub_self, slice_toLe_append_zero,
        ofLe_toLe _ _ (by norm_num; omega)]
    have hdrop : (index_bytes (places start (g :: gs))).drop 8
        = index_bytes (places (start + (block_bytes g).length) gs) := by
      rw [hbytes, ← append_assoc]
      exact drop_left' (by simp)
    have hroom : 8 ≤ (index_bytes (places start (g :: gs))).length := by
      rw [length_index_bytes, length_places, length_cons]
      omega
    have hbelow : last.any (first_of g < ·) = false := by
      cases last with
      | none => rfl
      | some x => exact decide_eq_false (not_lt.mpr (hlast x rfl g (.head _)))
    have hrest : parse_from len gs.length (b + 1)
        (index_bytes (places (start + (block_bytes g).length) gs)) start (some (first_of g))
        = some (places (start + (block_bytes g).length) gs, []) := by
      refine ih h.tail (.inr ⟨Nat.succ_pos b, by omega⟩) (by omega) fun x hx y hy => ?_
      cases hx
      exact h.first_of_le hy
    rw [length_cons, parse_from]
    simp only [hfp, hnext, hdrop, hrest, bind, Option.bind]
    rw [if_neg (by omega), if_neg (by omega), if_neg (by omega), if_neg (by simp [hbelow]),
      if_neg (by omega), places]

/-- The index of some blocks. -/
def of_blocks (gs : List (List Record)) : FingerprintIndex where
  records := gs.flatten.length
  firsts := gs.map first_of
  starts := (places 0 gs).map Prod.snd

/-- **The index section of an encoder is read back.** -/
theorem parse_index {e : Encoder} (h : e.Laid gs) (hw : Written span gs) :
    parse (put e.records.length ++ e.index) e.len = some (of_blocks gs) := by
  have hlen : e.len = (gs.flatMap block_bytes).length := congrArg List.length h.bytes
  have hfits := hw.fits
  have hcount : e.records.length ≤ e.len := by
    rw [h.records, hlen]
    exact length_flatten_le h.ne_nil
  have hblocks : (e.records.length + (RECORD_BLOCK - 1)) / RECORD_BLOCK = gs.length := by
    rw [h.records]
    exact (h.chunked.length_blocks (by decide)).symm
  have hroom : ¬ e.index.length / 8 < gs.length := by
    rw [h.index, length_index_bytes, length_places]
    omega
  have hfrom : parse_from e.len gs.length 0 (index_bytes (places 0 gs)) 0 Option.none
      = some (places 0 gs, []) :=
    parse_from_places hw (by omega) (.inl ⟨rfl, rfl⟩) (by omega) nofun
  have hempty : 0 < gs.length ∨ e.len = 0 := by
    cases gs with
    | nil => exact .inr hlen
    | cons g gs => exact .inl (Nat.succ_pos _)
  rw [parse, take_put (by omega)]
  simp only [bind, Option.bind, hblocks]
  rw [if_neg hroom, h.index, hfrom]
  simp only [true_and]
  rw [if_pos hempty, map_fst_places, h.records]
  rfl

/-- Records in block `b`. -/
def count (index : FingerprintIndex) (b : ℕ) : ℕ :=
  min (index.records - b * RECORD_BLOCK) RECORD_BLOCK

theorem count_of_blocks (h : Chunked RECORD_BLOCK gs) {k : ℕ} {g : List Record}
    (hk : gs[k]? = some g) : (of_blocks gs).count k = g.length := by
  rw [h.length_block hk, count, min_comm]
  rfl

end FingerprintIndex

/-! ## The blocks -/

variable {σ : Type}

/-- The record after one with fingerprint `fp` and document `offset`, and the
bytes after it; `none` when it does not sort after that one or is out of
range. -/
def next_pair (span : ℕ) (bytes : Bytes) (fp offset : ℕ) : Option (ℕ × ℕ × Bytes) := do
  let (delta, rest) ← take bytes
  let (next, rest) ← take rest
  if 2 ^ 32 ≤ delta ∨ 2 ^ 32 ≤ next then none
  else if span < next ∨ delta = 0 ∧ next ≤ offset then none
  else if 2 ^ 32 ≤ fp + delta then none
  else some (fp + delta, next, rest)

/-- The loop of `decode_block`, past a record that `each` has seen. -/
def decode_from (span : ℕ) (each : σ → ℕ → ℕ → σ × Bool) :
    ℕ → Bytes → ℕ → ℕ → σ → Option σ
  | 0, bytes, _, _, state => if bytes = [] then some state else none
  | left + 1, bytes, fp, offset, state => do
    let (fp, offset, rest) ← next_pair span bytes fp offset
    let (state, more) := each state fp offset
    if more then decode_from span each left rest fp offset state else some state

/-- Decodes one block of `count` records whose first fingerprint the index
says is `first_fp`, calling `each` in order until it returns false. `none`
when the bytes are inconsistent: a short or long block, a first fingerprint
other than the index's, a record not after the one before it, or an offset
past `span`. -/
def decode_block (bytes : Bytes) (first_fp count span : ℕ) (each : σ → ℕ → ℕ → σ × Bool)
    (state : σ) : Option σ :=
  if bytes.length < 8 then none
  else
    let fp := u32_at bytes 0
    let offset := u32_at bytes 4
    if fp ≠ first_fp ∨ span < offset then none
    else
      match count with
      | 0 => if bytes.length = 8 then some state else none
      | left + 1 =>
        let (state, more) := each state fp offset
        if more then decode_from span each left (bytes.drop 8) fp offset state else some state

/-- Calls `each` with records in order until it returns false. -/
def visit (each : σ → ℕ → ℕ → σ × Bool) : List Record → σ → σ
  | [], state => state
  | r :: rest, state =>
    let (state, more) := each state (ofLex r).1 (ofLex r).2
    if more then visit each rest state else state

open Encoder

variable {span : ℕ} {g : List Record}

theorem decode_from_steps (hspan : span < 2 ^ 32) (each : σ → ℕ → ℕ → σ × Bool) {r : Record}
    (hs : (r :: g).Pairwise (· < ·)) (hin : InRange span (r :: g)) (state : σ) :
    decode_from span each g.length (steps_bytes (ofLex r).1 g) (ofLex r).1 (ofLex r).2 state
      = some (visit each g state) := by
  induction g generalizing r state with
  | nil => rfl
  | cons x g ih =>
    obtain ⟨hr, hrest⟩ := pairwise_cons.mp hs
    have hlt := hr x (.head _)
    have hle := fst_le hlt
    obtain ⟨_, _⟩ := hin x (.tail _ (.head _))
    have hpair : next_pair span (steps_bytes (ofLex r).1 (x :: g)) (ofLex r).1 (ofLex r).2
        = some ((ofLex x).1, (ofLex x).2, steps_bytes (ofLex x).1 g) := by
      have hafter : ¬ ((ofLex x).1 - (ofLex r).1 = 0 ∧ (ofLex x).2 ≤ (ofLex r).2) := by
        rcases Prod.Lex.lt_iff.mp hlt with h | h <;> omega
      rw [next_pair, steps_bytes, take_put (by omega)]
      simp only [bind, Option.bind]
      rw [take_put (by omega)]
      simp only
      rw [if_neg (by omega), if_neg (by omega), if_neg (by omega), Nat.add_sub_cancel' hle]
    have hnext := fun state =>
      ih hrest (fun y hy => hin y (.tail _ hy)) state
    rw [length_cons, decode_from, hpair, visit]
    simp only [bind, Option.bind]
    rw [hnext]
    split <;> rfl

/-- **A block is decoded to its records.** -/
theorem decode_block_bytes (hspan : span < 2 ^ 32) (each : σ → ℕ → ℕ → σ × Bool) (hg : g ≠ [])
    (hs : g.Pairwise (· < ·)) (hin : InRange span g) (state : σ) :
    decode_block (block_bytes g) (first_of g) g.length span each state
      = some (visit each g state) := by
  cases g with
  | nil => exact absurd rfl hg
  | cons r g =>
    obtain ⟨_, hdoc⟩ := hin r (.head _)
    have h8 := (length_block_bytes hg).1
    have hfirst : u32_at (block_bytes (r :: g)) 0 = (ofLex r).1 := by
      rw [block_bytes, u32_at, slice_toLe_append_zero, ofLe_toLe _ _ (by norm_num; omega)]
    have hsecond : u32_at (block_bytes (r :: g)) 4 = (ofLex r).2 := by
      rw [block_bytes, u32_at, slice_toLe_append _ le_rfl, Nat.sub_self, slice_toLe_append_zero,
        ofLe_toLe _ _ (by norm_num; omega)]
    have hdrop : (block_bytes (r :: g)).drop 8 = steps_bytes (ofLex r).1 g := by
      rw [block_bytes, ← append_assoc]
      exact drop_left' (by simp)
    have hsame : ¬ ((ofLex r).1 ≠ first_of (r :: g) ∨ span < (ofLex r).2) := by
      rw [not_or, not_not, not_lt]
      exact ⟨rfl, hdoc⟩
    rw [decode_block, if_neg (by omega), visit]
    simp only [hfirst, hsecond, hdrop, length_cons]
    rw [if_neg hsame, decode_from_steps hspan each hs hin]
    split <;> rfl

end Ferret
