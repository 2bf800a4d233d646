import Ferret.Segment.Stream

/-!
# What is written is read back

A finished file opens: its head has the fields the reader looks for, its table
tiles the file, and the sections the reader checks have the sums the table
gives. The segment it opens to holds the dictionary that was laid out, and
with what `Stream` says of such a segment that is the round trip,
`Segment.round_trip`: the terms and documents that were pushed, in order,
and no others.
-/

namespace Ferret

open List

/-! ## The head -/

theorem slice_magic_append {offset m : ℕ} (rest : Bytes) (h : 8 ≤ offset) :
    slice (MAGIC ++ rest) offset m = slice rest (offset - 8) m :=
  slice_append h

variable {digests : Section → Bytes} {lengths : Section → ℕ}

namespace Writer

variable {C : Checksum} {w : Writer}

/-- **The fixed fields, where the reader looks for them.** -/
theorem slice_fields (w : Writer) :
    w.fields.length = 64 ∧ w.fields.take 8 = MAGIC
      ∧ slice w.fields 8 4 = toLe 4 FORMAT_VERSION ∧ slice w.fields 12 4 = toLe 4 w.tokenizer
      ∧ slice w.fields 16 4 = toLe 4 w.codec.number ∧ slice w.fields 20 4 = toLe 4 POSTINGS_CODEC
      ∧ slice w.fields 24 4 = toLe 4 w.first ∧ slice w.fields 28 4 = toLe 4 w.last
      ∧ slice w.fields 32 8 = toLe 8 w.sizes.terms
      ∧ slice w.fields 48 4 = toLe 4 CHUNK ∧ slice w.fields 52 4 = toLe 4 w.sections.length
      ∧ slice w.fields 56 8 = List.replicate 8 0 := by
  unfold fields
  refine ⟨by simp [MAGIC], rfl, ?_, ?_, ?_, ?_, ?_, ?_, ?_, ?_, ?_, ?_⟩ <;>
    simp only [slice_magic_append, slice_toLe_append, slice_toLe_append_zero, Nat.reduceLeDiff,
      Nat.reduceSub, le_refl, Nat.sub_self]
  rfl

theorem length_table (hd : ∀ s, (digests s).length = 16) (offset : ℕ) (ss : List Section) :
    (table lengths digests offset ss).length = ss.length * TABLE_ENTRY := by
  induction ss generalizing offset with
  | nil => simp [table]
  | cons s ss ih =>
    simp only [table, length_append, length_toLe, hd, ih, length_cons, add_mul, TABLE_ENTRY]
    omega

theorem length_head (hd : ∀ s, (digests s).length = 16) :
    (w.head C lengths digests).length = w.head_len := by
  simp only [head, length_append, w.slice_fields.1, length_table hd, C.length_checksum,
    head_len, Ferret.head_len, FIELDS]

theorem length_chunk_digests (lengths : Section → ℕ) (sums : Bytes) (digests : Section → Bytes)
    (hd : ∀ s, (digests s).length = 16) (s : Section) :
    (chunk_digests C lengths sums digests s).length = 16 := by
  cases s <;> first | exact C.length_checksum _ | exact hd _

/-- The codec of a head is one the reader knows, and no head is longer than
the reader reads. -/
theorem sections_eq (w : Writer) : Ferret.sections w.codec.number = some w.sections
    ∧ HEAD ≤ w.head_len ∧ w.head_len ≤ HEAD_MAX ∧ w.codec.number < 256 ^ 4
    ∧ w.sections.length < 256 ^ 4 := by
  unfold head_len sections
  cases w.codec <;> decide

end Writer

/-- **The head of a finished file is read back.** -/
theorem Head.read_head (C : Checksum) (w : Writer) (lengths : Section → ℕ)
    (hd : ∀ s, (digests s).length = 16) (rest : Bytes) (hle : w.first ≤ w.last)
    (hlast : w.last < docLimit) (hterms : w.sizes.terms < 2 ^ 64) :
    ∃ info, Head.read C (w.head C lengths digests ++ rest)
        = .ok { bytes := w.head C lengths digests, dictionary := w.codec.number,
                sections := w.sections, info := info }
      ∧ info.first = w.first ∧ info.last = w.last ∧ info.terms = w.sizes.terms := by
  obtain ⟨hsections, _, _, hcodec, hcount⟩ := w.sections_eq
  obtain ⟨hF, hmagic, h8, _, h16, h20, h24, h28, h32, h48, h52, h56⟩ := w.slice_fields
  have hH : (w.head C lengths digests).length = w.head_len := w.length_head hd
  set H := w.head C lengths digests with hHdef
  have hHF : H = w.fields ++ (Writer.table lengths digests w.head_len w.sections
      ++ C.checksum (w.fields ++ Writer.table lengths digests w.head_len w.sections)) := by
    rw [hHdef, Writer.head, append_assoc]
  unfold docLimit at hlast
  set m := min (H ++ rest).length HEAD_MAX with hm
  have hHm : H.length ≤ m := by
    rw [hm, length_append]
    omega
  have hm64 : 208 ≤ m := by
    have : HEAD = 208 := rfl
    omega
  have hread : read_exact_at (H ++ rest) m 0 = .ok ((H ++ rest).take m) := by
    rw [read_exact_at, if_pos (by omega)]
    rfl
  have hlen : ((H ++ rest).take m).length = m := by
    rw [length_take]
    omega
  -- every field lies in the fixed fields, however much was read
  have hfield : ∀ {o n}, o + n ≤ 64 →
      slice ((H ++ rest).take m) o n = slice w.fields o n := by
    intro o n hoff
    rw [slice_take (by omega), hHF, append_assoc, slice_append_left (by omega)]
  have hfieldH : ∀ {o n}, o + n ≤ 64 → slice H o n = slice w.fields o n := by
    intro o n hoff
    rw [hHF, slice_append_left (by omega)]
  have htake : ((H ++ rest).take m).take (Ferret.head_len w.sections.length) = H := by
    rw [← Writer.head_len, ← hH, take_take, min_eq_left hHm]
    exact take_left
  refine ⟨⟨u32_at H 12, u32_at H 24, u32_at H 28, u64_at H 32, u64_at H 40⟩, ?_, ?_, ?_, ?_⟩
  · have hv : u32_at ((H ++ rest).take m) 8 = FORMAT_VERSION := by
      rw [u32_at, hfield (by omega), h8, ofLe_toLe _ _ (by decide)]
    have hdict : u32_at ((H ++ rest).take m) 16 = w.codec.number := by
      rw [u32_at, hfield (by omega), h16, ofLe_toLe _ _ hcodec]
    have hpost : u32_at ((H ++ rest).take m) 20 = POSTINGS_CODEC := by
      rw [u32_at, hfield (by omega), h20, ofLe_toLe _ _ (by decide)]
    have hmag : ((H ++ rest).take m).take 8 = MAGIC := by
      rw [← hmagic]
      exact hfield (o := 0) (n := 8) (by omega)
    have hcheck : C.checksum (H.take (Ferret.head_len w.sections.length - 16))
        = H.drop (Ferret.head_len w.sections.length - 16) := by
      have hcut : Ferret.head_len w.sections.length - 16
          = (w.fields ++ Writer.table lengths digests w.head_len w.sections).length := by
        rw [length_append, hF, Writer.length_table hd, Ferret.head_len, FIELDS]
        omega
      rw [hcut, hHF, ← append_assoc, take_left, drop_left]
    have hinfo : ¬ (u32_at H 28 < u32_at H 24 ∨ u32_at H 48 ≠ CHUNK
        ∨ u32_at H 52 ≠ w.sections.length ∨ slice H 56 8 ≠ List.replicate 8 0) := by
      rw [u32_at, u32_at, u32_at, u32_at, hfieldH (by omega), hfieldH (by omega),
        hfieldH (by omega), hfieldH (by omega), hfieldH (by omega), h24, h28, h48, h52, h56,
        ofLe_toLe _ _ (by norm_num; omega), ofLe_toLe _ _ (by norm_num; omega),
        ofLe_toLe _ _ (by decide), ofLe_toLe _ _ hcount]
      simpa using hle
    have hheadlen : ¬ m < Ferret.head_len w.sections.length := by
      rw [← Writer.head_len, ← hH]
      omega
    have hHEAD : ¬ m < HEAD := by
      have : HEAD = 208 := rfl
      omega
    unfold Head.read
    simp only [bind, Except.bind, ← hm, hread, hlen, hmag, hv, hdict, hpost, hsections,
      Option.filter_some, decide_true, if_true, ne_eq, not_true_eq_false, or_false, if_false,
      hHEAD, hheadlen, htake, hcheck]
    rw [if_neg (by omega), if_neg hinfo]
  · show ofLe (slice H 24 4) = w.first
    rw [hfieldH (by omega), h24, ofLe_toLe _ _ (by norm_num; omega)]
  · show ofLe (slice H 28 4) = w.last
    rw [hfieldH (by omega), h28, ofLe_toLe _ _ (by norm_num; omega)]
  · show ofLe (slice H 32 8) = w.sizes.terms
    rw [hfieldH (by omega), h32, ofLe_toLe _ _ (by norm_num; omega)]

/-! ## The section table -/

/-- The table of sections laid out from an offset on. -/
def fill (lengths : Section → ℕ) (digests : Section → Bytes) :
    ℕ → List Section → Table → Table
  | _, [], table => table
  | offset, s :: rest, table =>
    fill lengths digests (offset + lengths s) rest
      (Function.update table s (offset, lengths s, digests s))

/-- **The table is read back entry by entry.** -/
theorem Head.tableFrom_eq (hd : ∀ s, (digests s).length = 16) {head tail : Bytes} {size : ℕ}
    (hsize : size < 2 ^ 64) (ss : List Section) (i offset : ℕ) (table : Table)
    (hdrop : head.drop (FIELDS + i * TABLE_ENTRY) = Writer.table lengths digests offset ss ++ tail)
    (hfit : offset + (ss.map lengths).sum ≤ size) :
    Head.tableFrom head size ss i offset table
      = .ok (fill lengths digests offset ss table, offset + (ss.map lengths).sum) := by
  induction ss generalizing i offset table with
  | nil => rfl
  | cons s ss ih =>
    rw [Writer.table, append_assoc, append_assoc, append_assoc] at hdrop
    rw [map_cons, sum_cons] at hfit
    set at_i := FIELDS + i * TABLE_ENTRY with hat
    have hskip : ∀ off n, slice head (at_i + off) n = slice (head.drop at_i) off n := by
      intro off n
      rw [slice, slice, drop_drop]
    have hoff : u64_at head at_i = offset := by
      have := hskip 0 8
      rw [add_zero, hdrop, slice_toLe_append_zero] at this
      rw [u64_at, this, ofLe_toLe _ _ (by norm_num; omega)]
    have hlen : u64_at head (at_i + 8) = lengths s := by
      rw [u64_at, hskip, hdrop, slice_toLe_append _ le_rfl, Nat.sub_self, slice_toLe_append_zero,
        ofLe_toLe _ _ (by norm_num; omega)]
    have hdig : slice head (at_i + 16) 16 = digests s := by
      rw [hskip, hdrop, slice_toLe_append _ (by omega), slice_toLe_append _ (by omega)]
      exact slice_mid (a := []) rfl (hd s)
    have hnext : head.drop (FIELDS + (i + 1) * TABLE_ENTRY)
        = Writer.table lengths digests (offset + lengths s) ss ++ tail := by
      have hstep : FIELDS + (i + 1) * TABLE_ENTRY = at_i + 32 := by
        rw [hat, TABLE_ENTRY]
        omega
      rw [hstep, ← drop_drop, hdrop, ← append_assoc, ← append_assoc]
      exact drop_left' (by simp [hd])
    have hrest := ih (i + 1) (offset + lengths s)
      (Function.update table s (offset, lengths s, digests s)) hnext (by omega)
    rw [Head.tableFrom]
    simp only [bind, Except.bind, ← hat, hoff, hlen, hdig]
    rw [checked_add, if_pos (by omega)]
    simp only [orElse]
    rw [if_neg (by omega), hrest, fill, map_cons, sum_cons, add_assoc]

/-! ## Opening -/

theorem docs_bytes_ne_nil (P : Intpack) (first : ℕ) (docs : List ℕ) :
    docs_bytes P first docs ≠ [] := by
  match docs with
  | [] => simp [docs_bytes, put_ne_nil]
  | [_] => simp [docs_bytes, put_ne_nil]
  | _ :: _ :: _ => simp [docs_bytes, put_ne_nil]

theorem length_le_entries (P : Intpack) (first : ℕ) (previous : Option Bytes) (g : Group) :
    g.length ≤ (entries_bytes P first previous g).length := by
  induction g generalizing previous with
  | nil => exact Nat.zero_le _
  | cons p g ih =>
    have := ih (some p.1)
    have hpos := length_pos_iff.mpr (docs_bytes_ne_nil P first p.2)
    rw [entries_bytes, length_append, length_append, length_cons]
    omega

/-- No entry is empty. -/
theorem length_le_blocks (P : Intpack) (first : ℕ) (gs : List Group) :
    gs.flatten.length ≤ (gs.flatMap (block_bytes P first)).length := by
  induction gs with
  | nil => exact Nat.zero_le _
  | cons g gs ih =>
    have := length_le_entries P first none g
    rw [flatten_cons, flatMap_cons, length_append, length_append]
    exact add_le_add this ih

/-- The file of a dictionary writer: its head and its four sections. -/
theorem Writer.file_eq {C : Checksum} {w : Writer} (hcodec : w.codec = .dictionary)
    (hsingles : w.singles = none) :
    ∃ digests : Section → Bytes, (∀ s, (digests s).length = 16)
      ∧ digests .index = C.checksum w.index
      ∧ digests .sums = C.checksum (chunk_sums C w.blocks ++ chunk_sums C w.postings)
      ∧ w.sections = SECTIONS ∧ w.head_len = HEAD
      ∧ w.file C = w.head C (fun s => (w.section_bytes C s).length) digests
        ++ (w.blocks ++ (w.postings ++ (w.index
          ++ (chunk_sums C w.blocks ++ chunk_sums C w.postings)))) := by
  have hsec : w.sections = SECTIONS := by
    unfold sections
    rw [hcodec]
    rfl
  have hsums : w.section_bytes C .sums = chunk_sums C w.blocks ++ chunk_sums C w.postings := by
    simp only [section_bytes, hsingles, Option.map_none, Option.getD_none]
    rw [show chunk_sums C [] = [] from rfl, append_nil]
  refine ⟨chunk_digests C (fun s => (w.section_bytes C s).length) (w.section_bytes C .sums)
      fun s => C.checksum (w.section_bytes C s),
    length_chunk_digests _ _ _ fun _ => C.length_checksum _, rfl, ?_, hsec, ?_, ?_⟩
  · show C.checksum (w.section_bytes C .sums) = _
    rw [hsums]
  · rw [head_len, hsec]
    rfl
  · rw [file, hsec, ← hsums]
    simp [SECTIONS, section_bytes]

/-- **A finished file opens to a segment that holds what was laid out.** -/
theorem Segment.open_file {P : Intpack} {C : Checksum} {w : Writer} {gs : List Group}
    (hcodec : w.codec = .dictionary) (hsingles : w.singles = none) (hlaid : w.Laid P gs)
    (hle : w.first ≤ w.last) (hwritten : Written P w.first w.last gs)
    (hsize : (w.file C).length < 2 ^ 64) :
    ∃ s, Segment.open C (w.file C) = .ok s ∧ s.Holds P C gs
      ∧ s.info.first = w.first ∧ s.info.last = w.last := by
  obtain ⟨digests, hd, hdindex, hdsums, hsec, hlen, hfile⟩ := w.file_eq (C := C) hcodec hsingles
  set lengths : Section → ℕ := fun s => (w.section_bytes C s).length with hlengths
  set H := w.head C lengths digests with hH
  set sums := chunk_sums C w.blocks ++ chunk_sums C w.postings with hsums
  have hHlen : H.length = 208 := (w.length_head hd).trans hlen
  have hlsums : lengths .sums = sums.length := by
    show (w.section_bytes C .sums).length = _
    simp only [Writer.section_bytes, hsingles, Option.map_none, Option.getD_none]
    rw [show chunk_sums C [] = [] from rfl, append_nil]
  have htotal : (w.file C).length = 208 + (w.blocks.length + (w.postings.length
      + (w.index.length + sums.length))) := by
    rw [hfile]
    simp only [length_append, hHlen]
  have hterms : w.sizes.terms < 2 ^ 64 := by
    have := length_le_blocks P w.first gs
    rw [← hlaid.terms, ← hlaid.blocks] at this
    omega
  obtain ⟨info, hhead, hfirst, hlast, hinfo⟩ := Head.read_head C w lengths hd
    (w.blocks ++ (w.postings ++ (w.index ++ sums))) hle hwritten.last_lt hterms
  -- the table
  have htable : Head.table ⟨H, w.codec.number, w.sections, info⟩ (w.file C).length
      = .ok (fill lengths digests 208 SECTIONS fun _ => (0, 0, [])) := by
    have hsum : (SECTIONS.map lengths).sum = w.blocks.length + (w.postings.length
        + (w.index.length + sums.length)) := by
      simp only [SECTIONS, map_cons, map_nil, sum_cons, sum_nil, hlsums, add_zero]
      rfl
    have hdrop : H.drop (FIELDS + 0 * TABLE_ENTRY)
        = Writer.table lengths digests 208 SECTIONS
          ++ C.checksum (w.fields ++ Writer.table lengths digests 208 SECTIONS) := by
      have h208 : w.head_len = 208 := hlen
      rw [hH, Writer.head, hsec, h208, append_assoc]
      exact drop_left' w.slice_fields.1
    have hfrom := Head.tableFrom_eq hd hsize SECTIONS 0 208 (fun _ => (0, 0, [])) hdrop
      (by rw [hsum, htotal])
    rw [Head.table, hsec, hHlen, hfrom]
    simp only [bind, Except.bind]
    rw [if_neg (by rw [hsum, htotal]; simp)]
  set table := fill lengths digests 208 SECTIONS fun _ => (0, 0, []) with htab
  have hblocks : table .blocks = (208, w.blocks.length, digests .blocks) := rfl
  have hpostings : table .postings
      = (208 + w.blocks.length, w.postings.length, digests .postings) := rfl
  have hfingerprints : table .fingerprints = (0, 0, []) := rfl
  -- the sections read whole
  have hindex : read_whole C (w.file C) table .index = .ok w.index := by
    have hentry : table .index
        = (208 + w.blocks.length + w.postings.length, w.index.length, digests .index) := rfl
    have hslice : slice (w.file C) (208 + w.blocks.length + w.postings.length) w.index.length
        = w.index := by
      rw [hfile, ← append_assoc, ← append_assoc]
      exact slice_mid (by simp only [length_append, hHlen]) rfl
    rw [read_whole, hentry]
    simp only [bind, Except.bind]
    rw [read_exact_at, if_pos (by omega), hslice]
    simp only [hdindex, ne_eq, not_true_eq_false, if_false]
  have hread : read_whole C (w.file C) table .sums = .ok sums := by
    have hentry : table .sums = (208 + w.blocks.length + w.postings.length + w.index.length,
        sums.length, digests .sums) := by
      rw [← hlsums]
      rfl
    have hslice : slice (w.file C) (208 + w.blocks.length + w.postings.length + w.index.length)
        sums.length = sums := by
      have hmid : slice ((H ++ w.blocks ++ w.postings ++ w.index) ++ (sums ++ []))
          (208 + w.blocks.length + w.postings.length + w.index.length) sums.length = sums :=
        slice_mid (by simp only [length_append, hHlen]) rfl
      rwa [append_nil, append_assoc, append_assoc, append_assoc, ← hfile] at hmid
    rw [read_whole, hentry]
    simp only [bind, Except.bind]
    rw [read_exact_at, if_pos (by omega), hslice]
    simp only [hdsums, ne_eq, not_true_eq_false, if_false]
  have hcount : sums.length
      = (chunks w.blocks.length + chunks w.postings.length + chunks 0) * 16 := by
    rw [hsums, length_append, length_chunk_sums, length_chunk_sums, show chunks 0 = 0 from rfl]
    omega
  have hparse := hwritten.parse_index_eq
  rw [← hlaid.index, ← hlaid.blocks, ← hlaid.postings, ← hlaid.terms] at hparse
  have hdict : read_fingerprints C (w.file C) table w.codec.number = .ok FingerprintIndex.none := by
    rw [hcodec]
    rfl
  have hopen : Segment.open C (w.file C) = .ok {
      source := w.file C
      info := info
      digest := Head.digest ⟨H, w.codec.number, w.sections, info⟩
      blocks_at := (208, w.blocks.length)
      postings_at := (208 + w.blocks.length, w.postings.length)
      lengths := fun s => (table s).2.1
      codec := w.codec.number
      fingerprints_at := (0, 0)
      fingerprints := FingerprintIndex.none
      sums := sums
      index_bytes := w.index
      samples := (List.range ((gs.length + (SAMPLE - 1)) / SAMPLE)).map
        fun i => place P w.first gs (i * SAMPLE)
      blocks := block_count info.terms } := by
    rw [← hH, ← hfile] at hhead
    unfold Segment.open
    simp only [bind, Except.bind, hhead, htable, hindex, hread, hblocks, hpostings, hfingerprints,
      hcount, hdict, hinfo, hparse, orElse, ne_eq, not_true_eq_false, if_false]
  refine ⟨_, hopen, ?_, hfirst, hlast⟩
  have hcut : ∀ {a X b : Bytes} {o : ℕ}, w.file C = a ++ (X ++ b) → a.length = o →
      o + X.length ≤ (w.file C).length ∧ slice (w.file C) o X.length = X := by
    intro a X b o hcat ho
    rw [hcat]
    refine ⟨?_, slice_mid ho rfl⟩
    simp only [length_append, ho]
    omega
  have hterms' : info.terms = gs.flatten.length := hinfo.trans hlaid.terms
  constructor <;> simp only [hfirst, hlast]
  · exact hwritten
  · exact hterms'
  · rw [hterms']
    exact hwritten.block_count_eq
  · rw [← hlaid.blocks]
    refine ⟨208, ?_, hcut hfile hHlen⟩
    show Except.ok (_, sums.take (chunks w.blocks.length * 16)) = _
    rw [hsums, ← length_chunk_sums C, take_left]
  · rw [← hlaid.postings]
    refine ⟨208 + w.blocks.length, ?_, hcut (a := H ++ w.blocks) (by
      rw [hfile, append_assoc]) (by rw [length_append, hHlen])⟩
    show Except.ok (_, slice sums (chunks w.blocks.length * 16) (chunks w.postings.length * 16)) = _
    rw [hsums, ← length_chunk_sums C, ← length_chunk_sums C, slice_append le_rfl, Nat.sub_self,
      slice, drop_zero, take_length]
  · exact congrArg List.length hlaid.blocks
  · exact congrArg List.length hlaid.postings

/-! ## The round trip -/

/-- Writes a segment of some terms. -/
def write_segment (P : Intpack) (C : Checksum) (fingerprint : Bytes → ℕ) (first last version : ℕ)
    (ps : List (Bytes × List ℕ)) : Except WriteError (Bytes × Sizes) := do
  let w ← Writer.build first last version .dictionary
  let w ← w.push_all P fingerprint ps
  w.finish C

variable {P : Intpack} {remaining : P.SortedCursor → List ℕ}

/-- **A segment answers with what was written to it.** Its stream yields the
terms in order, each with its documents; it finds a term if and only if it was
written; and a stream from a term on misses none. -/
structure Segment.Answers (P : Intpack) (C : Checksum) (s : Segment) (ps : List (Bytes × List ℕ)) :
    Prop where
  terms : s.terms.Yields P C s ps
  found : ∀ term docs, (term, docs) ∈ ps →
    (∃ found, s.entry P C term = .ok (some found) ∧ found.df = docs.length)
      ∧ ∃ hit, s.lookup P C term = .ok (some hit) ∧ hit.docs P = docs
  missing : ∀ term, (∀ p ∈ ps, p.1 ≠ term) →
    s.entry P C term = .ok none ∧ s.lookup P C term = .ok none
  terms_from : ∀ term, ∃ qs, qs <:+ ps ∧ (s.terms_from term).Yields P C s qs
    ∧ ∀ p ∈ ps, term ≤ p.1 → p ∈ qs

/-- What a finished writer's groups are. -/
theorem Writer.Laid.written {w : Writer} {gs : List Group} (h : w.Laid P gs)
    (hlast : w.last < docLimit) (hsorted : gs.flatten.Pairwise fun p q => p.1 < q.1)
    (hdocs : ∀ p ∈ gs.flatten, Pushable w.first w.last p.2)
    (hshort : ∀ p ∈ gs.flatten, p.1.length < 2 ^ 64)
    (hblocks : w.blocks.length < 2 ^ 64) (hpostings : w.postings.length < 2 ^ 64) :
    Written P w.first w.last gs where
  last_lt := hlast
  ne_nil := h.ne_nil
  full := h.full
  le := by
    intro g hg
    rcases eq_nil_or_concat gs with rfl | ⟨_, g', rfl⟩
    · cases hg
    · rw [concat_eq_append] at h hg
      rcases mem_append.mp hg with hg | hg
      · exact (h.full g (by rwa [dropLast_concat])).le
      · obtain ⟨_, _, -⟩ := h.in_block g' (by simp)
        rw [mem_singleton.mp hg]
        omega
  pushable := hdocs
  sorted := hsorted
  short := hshort
  blocks_short := h.blocks ▸ hblocks
  postings_short := h.postings ▸ hpostings

/-- **Whatever terms are written are read back.** -/
theorem Segment.round_trip (hP : P.Contract remaining) (C : Checksum) (fingerprint : Bytes → ℕ)
    {first last : ℕ} (hle : first ≤ last) (hlast : last < docLimit) (version : ℕ)
    {ps : List (Bytes × List ℕ)} (hsorted : ps.Pairwise fun p q => p.1 < q.1)
    (hshort : ∀ p ∈ ps, p.1.length < 2 ^ 64) (hdocs : ∀ p ∈ ps, Pushable first last p.2) :
    ∃ file sizes, write_segment P C fingerprint first last version ps = .ok (file, sizes)
      ∧ (file.length < 2 ^ 64 → ∃ s, Segment.open C file = .ok s ∧ s.Answers P C ps) := by
  obtain ⟨d, hd⟩ : ∃ d, Draft.build first last .dictionary = .ok d :=
    ⟨_, if_neg (not_lt.mpr hle)⟩
  obtain ⟨⟨hfirst, hlast', _⟩, hterms, hsingles⟩ := Draft.build_spec hd
  obtain ⟨w, hw, href, hcodec, -⟩ := Writer.build_refines (P := P) version hd
  have hpush := Draft.pushAll_eq fingerprint (w := d)
    (fun s hs => by rw [hsingles] at hs; cases hs) hsorted (fun p _ hpos => by omega)
    (fun p hp => by rw [hfirst, hlast']; exact hdocs p hp)
  obtain ⟨w', hw', href', hcodec', -⟩ := href.push_all hpush
  obtain ⟨gs, hgs, hlaid⟩ := href'.laid
  have hnone : w'.singles = none := by
    rw [href'.singles]
    show d.singles.map _ = none
    rw [hsingles]
    rfl
  have hall : gs.flatten = ps := by
    rw [hgs]
    show d.terms ++ d.kept ps = ps
    rw [hterms, Draft.kept, hsingles]
    rfl
  have hwfirst : w'.first = first := href'.first.trans hfirst
  have hwlast : w'.last = last := href'.last.trans hlast'
  have hsealed : w'.seal_records = w' := by
    rw [Writer.seal_records, hnone, Option.map_none, ← hnone]
  have hfinish : w'.finish C
      = .ok (w'.file C, w'.sizes_of fun s => (w'.section_bytes C s).length) := by
    rw [Writer.finish, hsealed, hnone]
    rfl
  refine ⟨w'.file C, w'.sizes_of fun s => (w'.section_bytes C s).length, ?_, fun hsize => ?_⟩
  · rw [write_segment, hw]
    simp only [bind, Except.bind, hw']
    exact hfinish
  · obtain ⟨_, -, -, -, -, -, hfile⟩ := w'.file_eq (C := C) (hcodec'.trans hcodec) hnone
    have hlen := congrArg List.length hfile
    simp only [length_append] at hlen
    have hwritten := hlaid.written (hwlast ▸ hlast) (hall ▸ hsorted)
      (by rw [hall, hwfirst, hwlast]; exact hdocs) (hall ▸ hshort) (by omega) (by omega)
    obtain ⟨s, hopen, hholds, -, -⟩ := Segment.open_file (hcodec'.trans hcodec) hnone hlaid
      (by rw [hwfirst, hwlast]; exact hle) hwritten hsize
    refine ⟨s, hopen, ?_, fun term docs hmem => ?_, fun term hnot => ?_, fun term => ?_⟩
    · have := hholds.terms_yields hP
      rwa [hall] at this
    · rw [← hall] at hmem
      obtain ⟨found, hfound, hpoints⟩ := (hholds.entry_eq hP term).1 docs hmem
      obtain ⟨hit, hlookup, hdocs, -⟩ := (hholds.lookup_eq hP term).1 docs hmem
      exact ⟨⟨found, hfound, hpoints.df⟩, hit, hlookup, hdocs⟩
    · rw [← hall] at hnot
      exact ⟨(hholds.entry_eq hP term).2 hnot, (hholds.lookup_eq hP term).2 hnot⟩
    · have := hholds.terms_from_yields hP term
      rwa [hall] at this

/-- Sixteen bytes that depend on all the others. -/
def folded : Checksum where
  checksum := fun bytes => toLe 16 (ofLe bytes % (2 ^ 128 - 1))
  length_checksum := fun _ => length_toLe 16 _

/-- Three terms in one block, one of them with a single document. -/
def three_terms : List (Bytes × List ℕ) := [([97], [7, 9]), ([97, 98], [8]), ([99], [7, 8, 12])]

theorem three_terms_round_trip :
    ∃ file sizes s, write_segment Intpack.plain folded (fun _ => 0) 7 12 1 three_terms
        = .ok (file, sizes)
      ∧ file.length < 2 ^ 64 ∧ Segment.open folded file = .ok s
      ∧ s.Answers Intpack.plain folded three_terms := by
  have hsorted : three_terms.Pairwise fun p q => p.1 < q.1 := by decide
  have hdocs : ∀ p ∈ three_terms, Pushable 7 12 p.2 := by
    intro p hp
    have hall : ∀ p ∈ three_terms, p.2 ≠ [] ∧ p.2.Pairwise (· < ·) ∧ ∀ d ∈ p.2, 7 ≤ d ∧ d ≤ 12 := by
      decide
    obtain ⟨h₁, h₂, h₃⟩ := hall p hp
    exact ⟨h₁, h₂, h₃⟩
  obtain ⟨file, sizes, hwrite, hread⟩ := Segment.round_trip Intpack.plain_contract folded
    (fun _ => 0) (by decide : 7 ≤ 12) (by decide) 1 hsorted (by decide) hdocs
  have hlen : (write_segment Intpack.plain folded (fun _ => 0) 7 12 1 three_terms).toOption.all
      (fun r => decide (r.1.length < 2 ^ 64)) = true := by decide +kernel
  rw [hwrite] at hlen
  have hsize : file.length < 2 ^ 64 := of_decide_eq_true hlen
  obtain ⟨s, hopen, hanswers⟩ := hread hsize
  exact ⟨file, sizes, s, hwrite, hsize, hopen, hanswers⟩

end Ferret
