import Ferret.Catalog.LogCodec
import Mathlib.Algebra.Order.BigOperators.Group.List

/-!
# Appending a transaction

`checked_size` encodes one record at a time and decodes it again; `encode`
encodes the records by family and decodes each block. What passes the first
passes the second, with the length that was computed, and the transaction is
one that `read_envelope` accepts after the log it was made for.
-/

namespace Ferret.Catalog

open Guarded List

/-! ## What the writer's checks accept -/

/-- The bytes of a record. -/
def Record.bytes (r : Record) : Bytes :=
  match r.encode with
  | .ok b => b
  | .error _ => []

/-- A record that is encoded, and decoded again. -/
def Record.Accepted (c : Counters) (sequence : UInt64) (r : Record) : Prop :=
  r.encode = .ok r.bytes ∧ ∃ rs, decode r.bytes 1 r.family c sequence = .ok rs

theorem Record.bytes_eq {r : Record} {b : Bytes} (h : r.encode = .ok b) : r.bytes = b := by
  rw [bytes, h]

variable {c : Counters} {sequence : UInt64}

/-- An accepted record has a whole number of words, two at least. -/
theorem Record.Accepted.length {r : Record} (h : r.Accepted c sequence) :
    16 ≤ r.bytes.length ∧ r.bytes.length % 8 = 0 := by
  obtain ⟨hb, _, hrs⟩ := h
  obtain ⟨p, hp⟩ := decode_one_of_decode hrs (encode_ne_nil hb)
  obtain ⟨_, _, hr, e⟩ := r.framed hb
  have hlen : (u32 (slice r.bytes 4 4)).toNat = r.bytes.length := by
    rw [e, hr.len, u32_put32, hr.length_eq, UInt32.toNat_ofNat']
    exact Nat.mod_eq_of_lt hr.small
  simp only [decode_one, bind_eq_ok, ensure_eq_ok, range_eq_ok, byte_at_eq_ok, u32_at_eq_ok,
    pure_eq_ok, exists_const, and_assoc, exists_eq_left', exists_and_left, hlen] at hp
  exact ⟨hp.2.2.2.2.2.2.2.1, hp.2.2.2.2.2.2.2.2.1⟩

/-- The total length of some records. -/
def total (records : List Record) : ℕ := (records.map fun r => r.bytes.length).sum

@[simp]
theorem total_cons (r : Record) (records : List Record) :
    total (r :: records) = r.bytes.length + total records := by
  simp [total]

variable {records : List Record} {C : Checksum} {start offset n length : ℕ} {ps : List Payload}
  {changes : ChangeSet} {previous : UInt64} {file file' : File} {counters : Counters}

theorem checked_sizes_ok {sizes sizes' : Sizes}
    (h : checked_sizes c sequence records sizes = .ok sizes') :
    (∀ r ∈ records, r.Accepted c sequence) ∧ sizes'.length = sizes.length + total records ∧
      ∀ f, sizes'.counts f = sizes.counts f + (records.filter (·.family = f)).length ∧
        (sizes.counts f < 2 ^ 32 → sizes'.counts f < 2 ^ 32) := by
  induction records generalizing sizes with
  | nil =>
    simp only [checked_sizes, pure_eq_ok] at h
    subst h
    simp [total]
  | cons r records ih =>
    simp only [checked_sizes, bind_eq_ok, ensure_eq_ok, exists_const] at h
    obtain ⟨b, hb, rs, hrs, hcount, _, hrest⟩ := h
    obtain ⟨hall, hlength, hcounts⟩ := ih hrest
    obtain rfl := Record.bytes_eq hb
    refine ⟨forall_mem_cons.mpr ⟨⟨hb, rs, hrs⟩, hall⟩, ?_, fun f => ?_⟩
    · rw [hlength, total_cons]
      exact add_assoc _ _ _
    · obtain ⟨hf, hlt⟩ := hcounts f
      rw [hf] at hlt ⊢
      simp only at hlt ⊢
      by_cases e : r.family = f
      · subst e
        simp only [if_true] at hlt ⊢
        rw [filter_cons_of_pos (by simp), length_cons]
        exact ⟨by omega, fun _ => by have := hlt hcount; omega⟩
      · rw [if_neg (Ne.symm e)] at hlt ⊢
        rw [filter_cons_of_neg (by simpa using e)]
        exact ⟨rfl, hlt⟩

/-- The records of each family together have the length of all. -/
theorem total_filter (records : List Record) :
    (FAMILIES.map fun f => total (records.filter (·.family = f))).sum = total records := by
  induction records with
  | nil => rfl
  | cons r records ih =>
    rw [total_cons, ← ih]
    cases hr : r.family <;> simp [FAMILIES, hr] <;> omega

theorem encode_records_ok (h : ∀ r ∈ records, r.Accepted c sequence)
    {bytes : Bytes} {count : ℕ} (hcount : count + records.length < 2 ^ 32) :
    encode_records records bytes count =
      .ok (bytes ++ (records.map Record.bytes).flatten, count + records.length) := by
  induction records generalizing bytes count with
  | nil => simp [encode_records]
  | cons r records ih =>
    obtain ⟨hr, hrest⟩ := forall_mem_cons.mp h
    rw [length_cons] at hcount
    simp only [encode_records, bind_eq_ok, ensure_eq_ok, exists_const]
    refine ⟨r.bytes, hr.1, by omega, ?_⟩
    rw [ih hrest (by omega)]
    simp only [append_assoc, map_cons, flatten_cons, length_cons]
    congr 2
    omega

/-! ## The blocks of a transaction -/

/-- The block of one family's records, if it has any. -/
def payload (records : List Record) (family : Family) : Option Payload :=
  let own := records.filter (·.family = family)
  if own = [] then none
  else some {
    family := family
    count := .ofNat own.length
    bytes := (own.map Record.bytes).flatten }

/-- The blocks of a transaction. -/
def payloads (records : List Record) : List Payload := FAMILIES.filterMap (payload records)

/-- **What a block that is written satisfies.** -/
structure Payload.Fits (records : List Record) (p : Payload) : Prop where
  bytes_eq : p.bytes = ((records.filter (·.family = p.family)).map Record.bytes).flatten
  count_eq : p.count.toNat = (records.filter (·.family = p.family)).length
  pos : p.count ≠ 0
  words : p.bytes.length % 8 = 0
  room : p.count.toNat ≤ p.bytes.length / 16

theorem length_flatten_bytes (records : List Record) :
    (records.map Record.bytes).flatten.length = total records := by
  simp [total, length_flatten, map_map, Function.comp_def]

theorem total_words (h : ∀ r ∈ records, r.Accepted c sequence) :
    total records % 8 = 0 ∧ 16 * records.length ≤ total records := by
  induction records with
  | nil => simp [total]
  | cons r records ih =>
    obtain ⟨hr, hrest⟩ := forall_mem_cons.mp h
    obtain ⟨_, _⟩ := ih hrest
    have := hr.length
    rw [total_cons, length_cons]
    omega

/-- The bytes of a transaction. -/
def tx_bytes (C : Checksum) (changes : ChangeSet) (sequence previous : UInt64) (length : ℕ)
    (ps : List Payload) : Bytes :=
  framing C changes sequence previous length ps ++ ((ps.map Payload.bytes).flatten ++
    (put64 sequence ++ (put64 (.ofNat length) ++
      C.checksum (framing C changes sequence previous length ps))))

section

variable {changes : ChangeSet}
    (hall : ∀ r ∈ changes.records, r.Accepted changes.counters sequence)
    (hcount : ∀ f, (changes.records.filter (·.family = f)).length < 2 ^ 32)

include hall in
theorem accepted_filter (f : Family) :
    ∀ r ∈ changes.records.filter (·.family = f), r.family = f ∧
      r.Accepted changes.counters sequence := by
  intro r hr
  obtain ⟨hmem, hf⟩ := mem_filter.mp hr
  exact ⟨by simpa using hf, hall r hmem⟩

include hall hcount

/-- The decoder accepts a family's block, and returns its records. -/
theorem decode_family (f : Family) :
    decode ((changes.records.filter (·.family = f)).map Record.bytes).flatten
      (.ofNat (changes.records.filter (·.family = f)).length) f changes.counters sequence =
        .ok (changes.records.filter (·.family = f)) := by
  refine decode_encode ?_ ?_
  · rw [UInt32.toNat_ofNat', Nat.mod_eq_of_lt (hcount f)]
  · rw [forall₂_map_right_iff, forall₂_same]
    intro r hr
    obtain ⟨hf, hb, rs, hrs⟩ := accepted_filter hall f r hr
    exact ⟨hb, rs, hf ▸ hrs⟩

theorem encode_family_ok (f : Family) :
    encode_family changes sequence f = .ok (payload changes.records f) := by
  have henc : encode_records (changes.records.filter (·.family = f)) [] 0 = _ :=
    encode_records_ok (fun r hr => (accepted_filter hall f r hr).2) (by simpa using hcount f)
  simp only [encode_family, henc, nil_append, zero_add, payload, bind_eq_ok]
  refine ⟨_, rfl, ?_⟩
  simp only [ne_eq, length_eq_zero_iff, ite_not]
  split
  · rfl
  · rw [decode_family hall hcount f]
    rfl

theorem payload_fits {f : Family} {p : Payload} (h : payload changes.records f = some p) :
    p.family = f ∧ p.Fits changes.records := by
  simp only [payload] at h
  split at h
  · cases h
  · next hne =>
    cases h
    have hpos := length_pos_of_ne_nil hne
    have hn : (UInt32.ofNat (changes.records.filter (·.family = f)).length).toNat =
        (changes.records.filter (·.family = f)).length := by
      rw [UInt32.toNat_ofNat', Nat.mod_eq_of_lt (hcount f)]
    obtain ⟨hmod, _⟩ := total_words fun r hr => (accepted_filter hall f r hr).2
    refine ⟨rfl, rfl, hn, fun e => ?_, ?_, ?_⟩
    · simp only at e
      rw [e] at hn
      simp at hn
      omega
    · rw [length_flatten_bytes]
      exact hmod
    · rw [hn, length_flatten_bytes]
      omega

theorem payloads_fit : ∀ p ∈ payloads changes.records, p.Fits changes.records := by
  intro p hp
  obtain ⟨f, _, hf⟩ := mem_filterMap.mp hp
  exact (payload_fits hall hcount hf).2

omit hall hcount in
theorem payload_family {records : List Record} {f : Family} {p : Payload}
    (h : payload records f = some p) : p.family = f := by
  simp only [payload] at h
  split at h
  · cases h
  · exact congrArg Payload.family (Option.some.inj h).symm

omit hall hcount in
theorem payloads_families (records : List Record) :
    ((payloads records).map Payload.family).Nodup := by
  have hsub : ∀ fs : List Family,
      ((fs.filterMap (payload records)).map Payload.family).Sublist fs := by
    intro fs
    induction fs with
    | nil => exact List.Sublist.slnil
    | cons f fs ih =>
      cases hf : payload records f with
      | none =>
        rw [filterMap_cons_none hf]
        exact ih.cons f
      | some p =>
        rw [filterMap_cons_some hf, map_cons, payload_family hf]
        exact ih.cons_cons f
  exact (show FAMILIES.Nodup by decide).sublist (hsub FAMILIES)

omit hall hcount in
theorem length_payloads (records : List Record) : (payloads records).length =
    (FAMILIES.filter fun f => (records.filter (·.family = f)).length ≠ 0).length := by
  rw [payloads, length_filterMap_eq_countP, ← countP_eq_length_filter]
  congr 1
  funext f
  simp only [payload]
  split <;> simp_all

omit hall hcount in
theorem length_bodies (records : List Record) :
    ((payloads records).map Payload.bytes).flatten.length = total records := by
  rw [← total_filter, payloads]
  induction FAMILIES with
  | nil => rfl
  | cons f _ ih =>
    rw [map_cons, sum_cons, ← ih]
    cases hf : payload records f with
    | none =>
      rw [filterMap_cons_none hf]
      have hnil : records.filter (·.family = f) = [] := by
        by_contra hne
        simp [payload, hne] at hf
      rw [hnil]
      exact (zero_add _).symm
    | some p =>
      rw [filterMap_cons_some hf, map_cons, flatten_cons, length_append]
      congr 1
      simp only [payload] at hf
      split at hf
      · cases hf
      · cases hf
        exact length_flatten_bytes _

/-- **`encode` accepts what `checked_size` accepts.** -/
theorem encode_eq {C : Checksum} {previous : UInt64} {length : ℕ}
    (hlength : length =
      64 + (payloads changes.records).length * 48 + total changes.records + 32) :
    encode C changes sequence previous =
      .ok (tx_bytes C changes sequence previous length (payloads changes.records)) := by
  have hmap : FAMILIES.mapM (encode_family changes sequence) =
      .ok (FAMILIES.map (payload changes.records)) := by
    rw [mapM_eq_ok, forall₂_map_right_iff, forall₂_same]
    exact fun f _ => encode_family_ok hall hcount f
  have hpayloads : (FAMILIES.map (payload changes.records)).filterMap id =
      payloads changes.records := by
    rw [filterMap_map]
    rfl
  simp only [encode, bind_eq_ok, pure_eq_ok]
  refine ⟨_, hmap, ?_⟩
  rw [hpayloads, length_bodies, ← hlength]
  rfl

end

/-! ## Reading a transaction back -/

/-- The blocks of some payloads, the first of which lies at `offset` of the
transaction at `start`. -/
def placed (C : Checksum) (start : ℕ) : ℕ → List Payload → List Block
  | _, [] => []
  | offset, p :: rest =>
    { family := p.family
      count := p.count
      offset := start + offset
      length := p.bytes.length
      digest := C.checksum p.bytes
      records := none } :: placed C start (offset + p.bytes.length) rest

theorem families_placed : (placed C start offset ps).map Block.family = ps.map Payload.family := by
  induction ps generalizing offset with
  | nil => rfl
  | cons p ps ih => rw [placed, map_cons, map_cons, ih]

theorem toNat_ofNat64 (h : n < 2 ^ 64) : (UInt64.ofNat n).toNat = n := by
  rw [UInt64.toNat_ofNat']
  exact Nat.mod_eq_of_lt h

@[simp]
theorem length_zeros (n : ℕ) : (zeros n).length = n := length_replicate

theorem length_descriptor (C : Checksum) (offset : ℕ) (p : Payload) :
    (p.descriptor C offset).length = 48 := by
  simp [Payload.descriptor, C.length_checksum]

attribute [local simp] Payload.descriptor slice_append in
/-- A descriptor is read as the block it was written for. -/
theorem read_block_ok {cursor : ℕ} {blocks : List Block} {p : Payload} (hp : p.Fits records)
    (hf : p.family ∉ blocks.map Block.family) (hc : cursor + p.bytes.length + 32 ≤ length)
    (hsmall : start + length < 2 ^ 63) :
    read_block start length cursor blocks (p.descriptor C cursor) = .ok {
      family := p.family
      count := p.count
      offset := start + cursor
      length := p.bytes.length
      digest := C.checksum p.bytes
      records := none } := by
  have hd := length_descriptor C cursor p
  have hindex : ((p.descriptor C cursor)[0]?.getD 0).toNat +
      256 * ((p.descriptor C cursor)[1]?.getD 0).toNat = p.family.index := by
    cases hfam : p.family <;> simp [hfam, Family.index, toLe]
  have hfamily : FAMILIES[p.family.index]? = some p.family := by cases p.family <;> rfl
  have h2 : slice (p.descriptor C cursor) 2 2 = zeros 2 := by simp
  have h4 : slice (p.descriptor C cursor) 4 4 = put32 p.count := by simp
  have h8 : slice (p.descriptor C cursor) 8 8 = put64 (.ofNat cursor) := by simp
  have h16 : slice (p.descriptor C cursor) 16 8 = put64 (.ofNat p.bytes.length) := by simp
  have h24 : slice (p.descriptor C cursor) 24 16 = C.checksum p.bytes := by simp [C.length_checksum]
  have h40 : slice (p.descriptor C cursor) 40 8 = zeros 8 := by simp [C.length_checksum]
  have hcount : p.count.toNat ≠ 0 := fun e => hp.pos (UInt32.toNat_inj.mp e)
  have hroom := hp.room
  simp only [read_block, bind_eq_ok, byte_at_eq_ok, u64_at_eq_ok, u32_at_eq_ok, and_assoc,
    exists_eq_left', exists_and_left, hindex, hfamily, h4, h8, h16, u32_put32, u64_put64,
    ensure_eq_ok, range_eq_ok, sub64_eq_ok, add64_eq_ok, pure_eq_ok, exists_const, h2, h24, h40,
    toNat_ofNat64 (show cursor < 2 ^ 64 by omega),
    toNat_ofNat64 (show p.bytes.length < 2 ^ 64 by omega), hd]
  refine ⟨by omega, by omega, by omega, by omega, by omega, hf, by omega, by omega, trivial, trivial,
    trivial, by omega, hp.words, hp.pos, hp.room, by omega, by omega, by omega, by omega, by omega, trivial⟩

/-- The descriptors one by one. -/
def descriptor_list (C : Checksum) : ℕ → List Payload → List Bytes
  | _, [] => []
  | offset, p :: rest => p.descriptor C offset :: descriptor_list C (offset + p.bytes.length) rest

theorem chunks_exact_cons {a b : Bytes} (hn : 0 < n) (ha : a.length = n) :
    chunks_exact n (a ++ b) = a :: chunks_exact n b := by
  have hlen : (a ++ b).length / n = b.length / n + 1 := by
    rw [length_append, ha, add_comm, Nat.add_div_right _ hn]
  rw [chunks_exact, hlen, range_succ_eq_map, map_cons, map_map]
  congr 1
  · rw [zero_mul]
    exact slice_front ha
  · refine map_congr_left fun i _ => ?_
    rw [Function.comp_apply, Nat.succ_mul, slice_append (by omega), ha, Nat.add_sub_cancel]

theorem chunks_descriptors :
    chunks_exact 48 (descriptors C offset ps) = descriptor_list C offset ps := by
  induction ps generalizing offset with
  | nil => simp [descriptors, descriptor_list, chunks_exact]
  | cons p ps ih =>
    rw [descriptors, chunks_exact_cons (by omega) (length_descriptor C offset p), ih]
    rfl

theorem length_descriptors : (descriptors C offset ps).length = ps.length * 48 := by
  induction ps generalizing offset with
  | nil => rfl
  | cons p ps ih =>
    rw [descriptors, length_append, length_descriptor, ih, length_cons]
    omega

theorem read_blocks_from_ok (hsmall : start + length < 2 ^ 63) {cursor : ℕ} {blocks : List Block}
    (hfit : ∀ p ∈ ps, p.Fits records)
    (hnodup : (blocks.map Block.family ++ ps.map Payload.family).Nodup)
    (hc : cursor + (ps.map Payload.bytes).flatten.length + 32 ≤ length) :
    read_blocks_from start length (descriptor_list C cursor ps) cursor blocks =
      .ok (cursor + (ps.map Payload.bytes).flatten.length, blocks ++ placed C start cursor ps) := by
  induction ps generalizing cursor blocks with
  | nil =>
    simp only [descriptor_list, read_blocks_from, pure_eq_ok]
    simp [placed]
  | cons p ps ih =>
    obtain ⟨hp, hrest⟩ := forall_mem_cons.mp hfit
    rw [map_cons, flatten_cons, length_append] at hc ⊢
    have hf : p.family ∉ blocks.map Block.family := by
      intro hmem
      exact (nodup_append.mp hnodup).2.2 _ hmem _ (by simp) rfl
    simp only [descriptor_list, read_blocks_from, bind_eq_ok, add64_eq_ok, and_assoc,
      exists_eq_left', exists_and_left]
    refine ⟨_, read_block_ok hp hf (by omega) hsmall, by simp only; omega, ?_⟩
    rw [ih hrest ?_ (by omega)]
    · simp only [placed, append_assoc, cons_append, nil_append, add_assoc]
    · simpa [append_assoc] using hnodup

/-- The blocks of a transaction are read back from its framing. -/
theorem read_blocks_ok {head : Bytes} (hhead : head.length = 64) (hfit : ∀ p ∈ ps, p.Fits records)
    (hnodup : (ps.map Payload.family).Nodup)
    (hlength : length = 64 + ps.length * 48 + (ps.map Payload.bytes).flatten.length + 32)
    (hsmall : start + length < 2 ^ 63) :
    read_blocks (head ++ descriptors C (64 + ps.length * 48) ps) start length =
      .ok (placed C start (64 + ps.length * 48) ps) := by
  have hlen : (head ++ descriptors C (64 + ps.length * 48) ps).length = 64 + ps.length * 48 := by
    rw [length_append, hhead, length_descriptors]
  have hds : slice (head ++ descriptors C (64 + ps.length * 48) ps) 64
      (64 + ps.length * 48 - 64) = descriptors C (64 + ps.length * 48) ps := by
    rw [slice_append (by omega), hhead, Nat.sub_self]
    exact slice_whole (by rw [length_descriptors]; omega)
  have hloop : read_blocks_from start length (descriptor_list C (64 + ps.length * 48) ps)
      (64 + ps.length * 48) [] = _ :=
    read_blocks_from_ok hsmall hfit (by simpa using hnodup) (by omega)
  simp only [read_blocks, bind_eq_ok, range_eq_ok, and_assoc, exists_and_left, exists_eq_left',
    hlen, hds, chunks_descriptors]
  refine ⟨by omega, _, hloop, ?_⟩
  simp only [sub64_eq_ok, ensure_eq_ok, pure_eq_ok, and_assoc, exists_and_left, exists_eq_left',
    exists_const]
  exact ⟨by omega, by omega, by simp⟩

/-- The head of a transaction, without its descriptors. -/
def tx_head (changes : ChangeSet) (sequence previous : UInt64) (length count : ℕ) : Bytes :=
  TX_MAGIC ++ (put32 VERSION ++ (put32 (.ofNat count) ++ (put64 (.ofNat length) ++
    (put64 sequence ++ (put64 previous ++ (put32 changes.counters.inode ++
    (put32 changes.counters.name ++ (put32 changes.counters.doc ++ zeros 12))))))))

theorem framing_eq : framing C changes sequence previous length ps =
      tx_head changes sequence previous length ps.length ++
        descriptors C (64 + ps.length * 48) ps := by
  simp only [framing, tx_head, append_assoc]

theorem length_tx_head {count : ℕ} :
    (tx_head changes sequence previous length count).length = 64 := by
  simp [tx_head, TX_MAGIC]

/-- The fields of a head, where the reader looks for them. -/
theorem slice_tx_head (changes : ChangeSet) (sequence previous : UInt64) (length count : ℕ) :
    let head := tx_head changes sequence previous length count
    slice head 0 8 = TX_MAGIC ∧ slice head 8 4 = put32 VERSION ∧
      slice head 12 4 = put32 (.ofNat count) ∧ slice head 16 8 = put64 (.ofNat length) ∧
      slice head 24 8 = put64 sequence ∧ slice head 32 8 = put64 previous ∧
      slice head 40 4 = put32 changes.counters.inode ∧
      slice head 44 4 = put32 changes.counters.name ∧
      slice head 48 4 = put32 changes.counters.doc ∧ slice head 52 12 = zeros 12 := by
  have hmagic : TX_MAGIC.length = 8 := rfl
  refine ⟨?_, ?_, ?_, ?_, ?_, ?_, ?_, ?_, ?_, ?_⟩ <;> simp [tx_head, slice_append, hmagic]

/-- The blocks of a transaction, as they are given to be written. -/
structure Bundle (changes : ChangeSet) (length : ℕ) (ps : List Payload) : Prop where
  fit : ∀ p ∈ ps, p.Fits changes.records
  nodup : (ps.map Payload.family).Nodup
  ne_nil : ps ≠ []
  length_eq : length = 64 + ps.length * 48 + (ps.map Payload.bytes).flatten.length + 32

theorem Bundle.count_le (h : Bundle changes length ps) : ps.length ≤ 4 := by
  have hsub : (ps.map Payload.family).Subperm FAMILIES :=
    subperm_of_subset h.nodup fun f _ => by cases f <;> simp [FAMILIES]
  simpa [FAMILIES] using hsub.length_le

theorem Bundle.words (h : Bundle changes length ps) : length % 8 = 0 := by
  have hwords : (ps.map Payload.bytes).flatten.length % 8 = 0 := by
    have hfit := h.fit
    clear h
    induction ps with
    | nil => rfl
    | cons p ps ih =>
      obtain ⟨hp, hrest⟩ := forall_mem_cons.mp hfit
      have := hp.words
      have := ih hrest
      rw [map_cons, flatten_cons, length_append]
      omega
  rw [h.length_eq]
  omega

/-- What the reader reads of a transaction. -/
structure Written (C : Checksum) (changes : ChangeSet) (sequence previous : UInt64) (length : ℕ)
    (ps : List Payload) (file : File) (start : ℕ) : Prop where
  stop_le : start + length ≤ file.bytes.length
  head : slice file.bytes start 64 = tx_head changes sequence previous length ps.length
  rest : slice file.bytes (start + 64) (ps.length * 48) = descriptors C (64 + ps.length * 48) ps
  bodies : slice file.bytes (start + (64 + ps.length * 48))
    (ps.map Payload.bytes).flatten.length = (ps.map Payload.bytes).flatten
  footer : slice file.bytes (start + length - 32) 32 = put64 sequence ++
    (put64 (.ofNat length) ++ C.checksum (framing C changes sequence previous length ps))

theorem Bundle.length_bytes (h : Bundle changes length ps) :
    (tx_bytes C changes sequence previous length ps).length = length := by
  have hlength := h.length_eq
  simp only [tx_bytes, framing_eq, length_append, length_tx_head, length_descriptors,
    length_put64, C.length_checksum]
  omega

theorem Bundle.written (h : Bundle changes length ps) (hstop : start + length ≤ file.bytes.length)
    (hfile : slice file.bytes start length = tx_bytes C changes sequence previous length ps) :
    Written C changes sequence previous length ps file start := by
  have hlength := h.length_eq
  have hflen : (framing C changes sequence previous length ps).length = 64 + ps.length * 48 := by
    rw [framing_eq, length_append, length_tx_head, length_descriptors]
  have hpart : ∀ i n, i + n ≤ length → slice file.bytes (start + i) n =
      slice (tx_bytes C changes sequence previous length ps) i n := by
    intro i n h
    rw [← hfile, slice_slice h]
  refine ⟨hstop, ?_, ?_, ?_, ?_⟩
  · rw [show start = start + 0 from rfl, hpart 0 64 (by omega), tx_bytes,
      slice_append_left (by omega), framing_eq]
    exact slice_front length_tx_head
  · rw [hpart 64 _ (by omega), tx_bytes, slice_append_left (by omega), framing_eq,
      slice_append (by rw [length_tx_head]), length_tx_head]
    exact slice_whole length_descriptors
  · rw [hpart _ _ (by omega), tx_bytes, slice_append (by omega), hflen, Nat.sub_self]
    exact slice_front rfl
  · rw [show start + length - 32 = start + (length - 32) by omega, hpart _ _ (by omega), tx_bytes,
      slice_append (by omega), hflen, slice_append (by omega),
      show length - 32 - (64 + ps.length * 48) - (ps.map Payload.bytes).flatten.length = 0 by omega]
    exact slice_whole (by simp [C.length_checksum])

/-- **A transaction is read back where it was written.** -/
theorem slice_footer (sequence length : UInt64) {digest : Bytes} (h : digest.length = 16) :
    let footer := put64 sequence ++ (put64 length ++ digest)
    footer.length = 32 ∧ slice footer 0 8 = put64 sequence ∧ slice footer 8 8 = put64 length
      ∧ slice footer 16 16 = digest := by
  simp [slice_append, h]

theorem read_envelope_ok {room : ℕ}
    (h : Bundle changes length ps) (hw : Written C changes sequence previous length ps file start)
    (hroom : length ≤ room) (hnext : previous.toNat + 1 = sequence.toNat)
    (hlast : sequence ≠ NONE64) (hinode : changes.counters.inode ≤ NONE - 16)
    (hname : changes.counters.name ≠ NONE) (hle : counters.Le changes.counters) :
    read_envelope C file start room previous counters = .ok ({
      sequence := sequence
      counters := changes.counters
      blocks := placed C start (64 + ps.length * 48) ps }, length) := by
  have hsmall := file.small
  have hlength := h.length_eq
  have hstop := hw.stop_le
  have hcount := h.count_le
  have hpos := length_pos_of_ne_nil h.ne_nil
  have hhead : (tx_head changes sequence previous length ps.length).length = 64 := length_tx_head
  have hblocks : read_blocks (framing C changes sequence previous length ps) start length =
      .ok (placed C start (64 + ps.length * 48) ps) := by
    rw [framing_eq]
    exact read_blocks_ok hhead h.fit h.nodup hlength (by omega)
  have hn : (UInt32.ofNat ps.length).toNat = ps.length := by
    rw [UInt32.toNat_ofNat']
    exact Nat.mod_eq_of_lt (by omega)
  obtain ⟨h0, h8, h12, h16, h24, h32, h40, h44, h48, h52⟩ :=
    slice_tx_head changes sequence previous length ps.length
  have hfooter := hw.footer
  obtain ⟨hlen, hf0, hf8, hf16⟩ := slice_footer sequence (.ofNat length)
    (C.length_checksum (framing C changes sequence previous length ps))
  generalize put64 sequence ++ (put64 (.ofNat length) ++
    C.checksum (framing C changes sequence previous length ps)) = footer at *
  simp only [read_envelope, bind_eq_ok, ensure_eq_ok, read_exact_at_eq_ok, u32_at_eq_ok,
    u64_at_eq_ok, range_eq_ok, add64_eq_ok, sub64_eq_ok, pure_eq_ok, and_assoc, exists_and_left,
    exists_eq_left', exists_const, hw.head, hw.rest, hfooter, hhead, h0, h8, h12, h16, h24, h32,
    h40, h44, h48, h52, hlen, hf0, hf8, hf16, u32_put32, u64_put64, hn,
    toNat_ofNat64 (show length < 2 ^ 64 by omega), ← framing_eq, hblocks]
  refine ⟨by omega, by omega, by omega, by omega, by omega, trivial, .inr trivial, trivial,
    by omega, by omega, by omega, by omega, hcount, by omega, h.words, hroom, by omega, hnext, hlast,
    trivial, by omega, by omega, by omega, hinode, hname, hle.1, hle.2.1, hle.2.2, by omega, by omega,
    by omega, by omega, by omega, by omega, by omega, by omega, trivial, trivial, trivial, _, rfl, rfl⟩

/-! ## A log with more after it -/

/-- Two files with the same first bytes. -/
structure Agree (file file' : File) (n : ℕ) : Prop where
  le : n ≤ file.bytes.length
  le' : n ≤ file'.bytes.length
  take_eq : file'.bytes.take n = file.bytes.take n

theorem Agree.slice_eq {k : ℕ} (h : Agree file file' n)
    (hk : offset + k ≤ n) : slice file'.bytes offset k = slice file.bytes offset k := by
  rw [← slice_take hk, h.take_eq, slice_take hk]

/-- A transaction is read from its own bytes. -/
theorem read_envelope_agree {room room' : ℕ} {t : Envelope} (hag : Agree file file' (start + room))
    (hroom : room ≤ room')
    (h : read_envelope C file start room sequence counters = .ok (t, length)) :
    read_envelope C file' start room' sequence counters = .ok (t, length) ∧ 0 < length ∧
      length ≤ room := by
  have hle := hag.le'
  simp only [read_envelope, bind_eq_ok, ensure_eq_ok, read_exact_at_eq_ok, u32_at_eq_ok,
    u64_at_eq_ok, range_eq_ok, add64_eq_ok, sub64_eq_ok, pure_eq_ok, and_assoc, exists_and_left,
    exists_eq_left', exists_const] at h
  have h96 := h.1
  generalize hhead : slice file.bytes start 64 = head at *
  generalize hcount : (u32 (slice head 12 4)).toNat = count at *
  generalize hlength : (u64 (slice head 16 8)).toNat = len at *
  obtain ⟨_, _, a1, a2, a3, b1, b2, b3, a4, a5, a6, c1, c2, c3, c4, _, a7, d1, d2, d3, a8, a9, a10,
    e1, e2, e3, e4, e5, f1, _, g1, g2, _, i1, i2, i3, j1, j2, j3, blocks, hblocks, hp⟩ := h
  have hlen : len = length := congrArg Prod.snd hp
  refine ⟨?_, by omega, by omega⟩
  simp only [read_envelope, bind_eq_ok, ensure_eq_ok, read_exact_at_eq_ok, u32_at_eq_ok,
    u64_at_eq_ok, range_eq_ok, add64_eq_ok, sub64_eq_ok, pure_eq_ok, and_assoc, exists_and_left,
    exists_eq_left', exists_const]
  rw [hag.slice_eq (show start + 64 ≤ start + room by omega), hhead, hcount, hlength,
    hag.slice_eq (show start + 64 + count * 48 ≤ start + room by omega),
    hag.slice_eq (show start + len - 32 + 32 ≤ start + room by omega)]
  exact ⟨by omega, by omega, a1, a2, a3, b1, b2, b3, a4, a5, a6, c1, c2, c3, c4, by omega, a7, d1,
    d2, d3, a8, a9, a10, e1, e2, e3, e4, e5, f1, by omega, g1, g2, by omega, i1, i2, i3, j1, j2, j3,
    blocks, hblocks, hp⟩

/-- **A longer log opens as the shorter one, and then goes on.** -/
theorem open_from_agree {log_end log_end' : ℕ}
    (hag : Agree file file' log_end) (hle : log_end ≤ log_end') {fuel : ℕ} {ts : List Envelope}
    {p : UInt64 × Counters × List Envelope} (hstart : start ≤ log_end)
    (h : open_from C file log_end fuel start sequence counters ts = .ok p) (fuel' : ℕ)
    (hfuel : log_end' - start < fuel') :
    ∃ rest, log_end' - log_end < rest ∧
      open_from C file' log_end' fuel' start sequence counters ts =
        open_from C file' log_end' rest log_end p.1 p.2.1 p.2.2 := by
  have hsmall := file.small
  have hend := hag.le
  induction fuel generalizing start sequence counters ts fuel' with
  | zero => cases h
  | succ fuel ih =>
    rw [open_from] at h
    split at h
    · next hlt =>
      rw [bind_eq_ok] at h
      obtain ⟨⟨t, length⟩, henv, h⟩ := h
      simp only [bind_eq_ok, add64_eq_ok, and_assoc, exists_and_left, exists_eq_left'] at h
      have hag' : Agree file file' (start + (log_end - start)) := by
        rwa [Nat.add_sub_cancel' hlt.le]
      obtain ⟨henv', _, _⟩ :=
        read_envelope_agree hag' (show log_end - start ≤ log_end' - start by omega) henv
      obtain ⟨fuel', rfl⟩ : ∃ k, fuel' = k + 1 := ⟨fuel' - 1, by omega⟩
      obtain ⟨rest, hrest, hnext⟩ := ih (by omega) h.2 fuel' (by omega)
      refine ⟨rest, hrest, ?_⟩
      rw [open_from, if_pos (by omega), henv']
      show (add64 start length >>= _) = _
      rw [show (add64 start length : Guarded OpenError ℕ) = .ok (start + length) by
        simp only [add64_eq_ok, and_true]; omega]
      exact hnext
    · next hge =>
      obtain rfl : start = log_end := by omega
      rw [pure_eq_ok] at h
      subst h
      exact ⟨fuel', hfuel, rfl⟩

/-! ## The manifest that is published -/

theorem length_manifest (C : Checksum) (m : Manifest) : (m.encode C).length = 128 := by
  simp [Manifest.encode, Manifest.fields, MANIFEST_MAGIC, m.generation.incarnation.2,
    C.length_checksum]

attribute [local simp] Manifest.encode Manifest.fields slice_append in
/-- A manifest that is read back has counters a log accepts. -/
theorem Manifest.counters_ok {m m' : Manifest} (h : Manifest.decode C (m.encode C) = .ok m') :
    m.counters.inode ≤ NONE - 16 ∧ m.counters.name ≠ NONE := by
  have hlen := length_manifest C m
  have hmagic : MANIFEST_MAGIC.length = 8 := rfl
  have hinc := m.generation.incarnation.2
  have h68 : slice (m.encode C) 68 4 = put32 m.counters.inode := by simp [hmagic, hinc]
  have h72 : slice (m.encode C) 72 4 = put32 m.counters.name := by simp [hmagic, hinc]
  refine wp_of_ok (P := fun _ => m.counters.inode ≤ NONE - 16 ∧ m.counters.name ≠ NONE) ?_ h
  simp only [Manifest.decode, wp_bind, wp_ensure, wp_range, wp_u32_at, wp_u64_at, wp_pure, hlen,
    h68, h72, u32_put32]
  refine fun _ => ⟨by omega, fun _ => ⟨by omega, by omega, fun _ => ⟨by omega, fun _ _ => ?_⟩⟩⟩
  refine wp_hash_at (by omega) ?_
  refine ⟨by omega, by omega, by omega, by omega, by omega, by omega, by omega, by omega, by omega,
    by omega, fun _ => ⟨by omega, fun _ _ _ hcounters _ => ?_⟩⟩
  exact ⟨by omega, fun _ => ⟨by omega, by omega, hcounters⟩⟩

/-- What the writer has checked of a change set it is about to append. -/
structure Manifest.Follows (C : Checksum) (m : Manifest) (changes : ChangeSet) (next : Manifest)
    (length : ℕ) : Prop where
  sequence : m.generation.sequence.toNat + 1 = next.generation.sequence.toNat
  last : next.generation.sequence ≠ NONE64
  base : { next.generation with sequence := next.checkpoint_sequence } =
    { m.generation with sequence := m.checkpoint_sequence }
  checkpoint : next.generation.checkpoint = m.generation.checkpoint
  checkpoint_sequence : next.checkpoint_sequence = m.checkpoint_sequence
  counters : next.counters = changes.counters
  inode : changes.counters.inode ≤ NONE - 16
  name : changes.counters.name ≠ NONE
  le : m.counters.Le changes.counters
  log_end : next.log_end.toNat = m.log_end.toNat + length
  size : checked_size changes next.generation.sequence = .ok length
  length_eq : length = 64 + (payloads changes.records).length * 48 + total changes.records + 32
  accepted : ∀ r ∈ changes.records, r.Accepted changes.counters next.generation.sequence
  count : ∀ f, (changes.records.filter (·.family = f)).length < 2 ^ 32

theorem Manifest.follows {m next : Manifest}
    {sniffer : UInt32} (h : m.next C changes sniffer = .ok (next, length)) :
    m.Follows C changes next length := by
  simp only [Manifest.next, bind_eq_ok, ensure_eq_ok, pure_eq_ok, exists_const] at h
  obtain ⟨⟨hlt, hlast⟩, _, hm', hle, size, hsize, hend, hnext⟩ := h
  cases hnext
  have hsize' := hsize
  simp only [checked_size, bind_eq_ok, add64_eq_ok] at hsize'
  obtain ⟨sizes, hsizes, _, rfl⟩ := hsize'
  obtain ⟨hall, hlength, hcounts⟩ := checked_sizes_ok hsizes
  obtain ⟨hinode, hname⟩ := Manifest.counters_ok hm'
  refine {
    sequence := ?_
    last := hlast
    base := rfl
    checkpoint := rfl
    checkpoint_sequence := rfl
    counters := rfl
    inode := hinode
    name := hname
    le := hle
    log_end := toNat_ofNat64 hend
    size := hsize
    length_eq := ?_
    accepted := hall
    count := ?_ }
  · simp only [UInt64.toNat_add, UInt64.toNat_one]
    exact (Nat.mod_eq_of_lt hlt).symm
  · have hcount : ∀ f, sizes.counts f = (changes.records.filter (·.family = f)).length := by
      intro f
      rw [(hcounts f).1, zero_add]
    rw [hlength, length_payloads]
    simp only [hcount]
    omega
  · intro f
    obtain ⟨e, hsmall⟩ := hcounts f
    rw [e, zero_add] at hsmall
    exact hsmall (by norm_num)

/-! ## Loading what was appended -/

/-- A block with its records, if it is of the family asked for. -/
def filled (records : List Record) (family : Family) (b : Block) : Block :=
  if b.family = family then { b with records := some (records.filter (·.family = family)) } else b

/-- The blocks of a transaction that was written are loaded as its records. -/
theorem placed_load
    {checkpoint : UInt64} (hall : ∀ r ∈ changes.records, r.Accepted changes.counters sequence)
    (hcount : ∀ f, (changes.records.filter (·.family = f)).length < 2 ^ 32) (family : Family)
    (hfit : ∀ p ∈ ps, p.Fits changes.records)
    (hstop : start + offset + (ps.map Payload.bytes).flatten.length ≤ file.bytes.length)
    (hfile : slice file.bytes (start + offset) (ps.map Payload.bytes).flatten.length =
      (ps.map Payload.bytes).flatten) :
    (placed C start offset ps).mapM
        (Block.load C (some file) checkpoint sequence changes.counters family) =
      .ok ((placed C start offset ps).map (filled changes.records family)) := by
  have hsmall := file.small
  rw [mapM_eq_ok, forall₂_map_right_iff, forall₂_same]
  induction ps generalizing offset with
  | nil => simp [placed]
  | cons p ps ih =>
    obtain ⟨hp, hrest⟩ := forall_mem_cons.mp hfit
    rw [map_cons, flatten_cons, length_append] at hstop hfile
    have hfirst : slice file.bytes (start + offset) p.bytes.length = p.bytes := by
      have := congrArg (fun b => slice b 0 p.bytes.length) hfile
      simp only [slice_slice (show 0 + p.bytes.length ≤
        p.bytes.length + (ps.map Payload.bytes).flatten.length by omega), add_zero] at this
      rw [this]
      exact slice_front rfl
    have hothers : slice file.bytes (start + (offset + p.bytes.length))
        (ps.map Payload.bytes).flatten.length = (ps.map Payload.bytes).flatten := by
      have := congrArg (fun b => slice b p.bytes.length (ps.map Payload.bytes).flatten.length) hfile
      simp only [slice_slice le_rfl] at this
      rw [← add_assoc, this, slice_append le_rfl, Nat.sub_self]
      exact slice_whole rfl
    rw [placed]
    refine forall_mem_cons.mpr ⟨?_, ih hrest (by omega) hothers⟩
    simp only [Block.load, filled]
    by_cases hf : p.family = family
    · have hdecode : decode p.bytes p.count family changes.counters sequence =
          .ok (changes.records.filter (·.family = family)) := by
        have hc : p.count = .ofNat (changes.records.filter (·.family = family)).length := by
          rw [← hf, ← hp.count_eq]
          exact UInt32.ofNat_toNat.symm
        rw [hc, hp.bytes_eq, hf]
        exact decode_family hall hcount family
      rw [if_neg (by simp [hf]), if_pos hf]
      simp only [bind_eq_ok, claim_eq_ok, exists_const, map_err_eq_ok, read_exact_at_eq_ok,
        ensure_eq_ok, pure_eq_ok, and_assoc, exists_and_left, exists_eq_left', hfirst, hdecode]
      refine ⟨by omega, by omega, trivial, _, rfl, rfl⟩
    · rw [if_pos (.inl hf), if_neg hf]
      rfl

theorem payloads_mem {f : Family} :
    f ∈ (payloads records).map Payload.family ↔ records.filter (·.family = f) ≠ [] := by
  constructor
  · rintro hmem
    obtain ⟨p, hp, rfl⟩ := mem_map.mp hmem
    obtain ⟨f, _, hf⟩ := mem_filterMap.mp hp
    rw [payload_family hf]
    intro hnil
    simp [payload, hnil] at hf
  · intro hne
    obtain ⟨p, hp⟩ : ∃ p, payload records f = some p := ⟨_, by simp only [payload, if_neg hne]; rfl⟩
    have hf : f ∈ FAMILIES := by cases f <;> simp [FAMILIES]
    exact mem_map.mpr ⟨p, mem_filterMap.mpr ⟨f, hf, hp⟩, payload_family hp⟩

@[simp]
theorem filled_family {family : Family} {b : Block} :
    (filled records family b).family = b.family := by
  unfold filled
  split <;> rfl

/-- The records of a family, once they are loaded, are those that were written. -/
theorem loaded_filled (C : Checksum) (start offset : ℕ) (records : List Record)
    (family : Family) :
    ∃ rs, (((placed C start offset (payloads records)).map (filled records family)).filter
      (·.family = family)).mapM Block.loaded = .ok rs ∧
        rs.flatten = records.filter (·.family = family) := by
  generalize hbs : ((placed C start offset (payloads records)).map (filled records family)).filter
    (·.family = family) = bs
  have hload : ∀ b ∈ bs, b.loaded = .ok (records.filter (·.family = family)) := by
    intro b hb
    rw [← hbs, mem_filter] at hb
    obtain ⟨hmem, hf⟩ := hb
    obtain ⟨_, _, rfl⟩ := mem_map.mp hmem
    rw [decide_eq_true_eq, filled_family] at hf
    rw [filled, if_pos hf]
    rfl
  have hmap : bs.mapM Block.loaded = .ok (bs.map fun _ => records.filter (·.family = family)) := by
    rw [mapM_eq_ok, forall₂_map_right_iff, forall₂_same]
    exact hload
  have hcount : bs.length = ((payloads records).map Payload.family).count family := by
    rw [← hbs, ← families_placed (C := C), ← countP_eq_length_filter, List.count,
      countP_map, countP_map]
    refine countP_congr fun b _ => ?_
    simp
  refine ⟨_, hmap, ?_⟩
  by_cases hmem : family ∈ (payloads records).map Payload.family
  · rw [count_eq_one_of_mem (payloads_families records) hmem] at hcount
    obtain ⟨b, rfl⟩ := length_eq_one_iff.mp hcount
    simp
  · rw [count_eq_zero_of_not_mem hmem] at hcount
    rw [eq_nil_of_length_eq_zero hcount]
    exact (not_not.mp (mt payloads_mem.mpr hmem)).symm

theorem read_exact_at_agree {m : ℕ} (h : Agree file file' n)
    (hm : offset + m ≤ n) : file'.read_exact_at m offset = file.read_exact_at m offset := by
  have hle := h.le
  have hle' := h.le'
  rw [File.read_exact_at, File.read_exact_at, h.slice_eq hm]
  simp only [ensure, if_pos (show offset + m ≤ file'.bytes.length by omega),
    if_pos (show offset + m ≤ file.bytes.length by omega)]

/-- An old block is loaded from the new file as from the old. -/
theorem block_load_agree {checkpoint : UInt64}
    {family : Family} {b : Block} (h : Agree file file' n) (hb : b.offset + b.length ≤ n) :
    b.load C (some file') checkpoint sequence c family =
      b.load C (some file) checkpoint sequence c family := by
  simp only [Block.load, read_exact_at_agree h hb]

end Ferret.Catalog
