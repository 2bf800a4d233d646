import Ferret.Catalog.Record

/-!
# The record codec

Two facts about the decoder. On any bytes it ends without a panic, and every
id of a record it accepts is below the counters it was given. On the bytes of
an encoded record it returns that record, or rejects it; so a writer that
decodes what it encoded has checked that a reader will see the same record.
-/

namespace Ferret.Catalog

open Guarded List

/-! ## Reading within the bytes -/

section

variable {ε : Type} {b : Bytes} {i n : ℕ}

@[simp]
theorem wp_range {P : Bytes → Prop} :
    wp (range b i n : Guarded ε Bytes) P ↔ i + n ≤ b.length ∧ P (slice b i n) := by
  simp [range]

@[simp]
theorem wp_byte_at {P : UInt8 → Prop} :
    wp (byte_at b i : Guarded ε UInt8) P ↔ i < b.length ∧ P (b[i]?.getD 0) := by
  simp [byte_at]

@[simp]
theorem wp_u32_at {P : UInt32 → Prop} :
    wp (u32_at b i : Guarded ε UInt32) P ↔ i + 4 ≤ b.length ∧ P (u32 (slice b i 4)) := by
  simp [u32_at]

@[simp]
theorem wp_u64_at {P : UInt64 → Prop} :
    wp (u64_at b i : Guarded ε UInt64) P ↔ i + 8 ≤ b.length ∧ P (u64 (slice b i 8)) := by
  simp [u64_at]

@[simp]
theorem range_eq_ok {x : Bytes} :
    (range b i n : Guarded ε Bytes) = .ok x ↔ i + n ≤ b.length ∧ slice b i n = x := by
  simp [range]

@[simp]
theorem byte_at_eq_ok {x : UInt8} :
    (byte_at b i : Guarded ε UInt8) = .ok x ↔ i < b.length ∧ b[i]?.getD 0 = x := by
  simp [byte_at]

@[simp]
theorem u32_at_eq_ok {x : UInt32} :
    (u32_at b i : Guarded ε UInt32) = .ok x ↔ i + 4 ≤ b.length ∧ u32 (slice b i 4) = x := by
  simp [u32_at]

@[simp]
theorem u64_at_eq_ok {x : UInt64} :
    (u64_at b i : Guarded ε UInt64) = .ok x ↔ i + 8 ≤ b.length ∧ u64 (slice b i 8) = x := by
  simp [u64_at]

theorem hash_at_eq (h : i + 16 ≤ b.length) :
    (hash_at b i : Guarded ε Hash) = .ok ⟨slice b i 16, length_slice h⟩ := by
  rw [hash_at, dif_pos (length_slice h)]

theorem wp_hash_at {P : Hash → Prop} (h : i + 16 ≤ b.length)
    (hP : P ⟨slice b i 16, length_slice h⟩) : wp (hash_at b i : Guarded ε Hash) P := by
  rw [hash_at_eq h]
  exact hP

end

theorem wp_kind {n : UInt8} {P : Kind → Prop} (h : ∀ k, P k) : wp (kind n) P := by
  unfold kind
  split <;> first | exact h _ | trivial

variable {n : ℕ} {b rest : Bytes} {family : Family} {r : Record}

theorem wp_text {count_at start : ℕ} {P : Bytes → Prop} (hc : count_at + 4 ≤ b.length)
    (hP : ∀ t, P t) : wp (text b count_at start) P := by
  simp only [text, wp_bind, wp_u32_at, wp_ensure, wp_byte_at, wp_range, wp_pure]
  refine ⟨hc, fun hstop hcount => ⟨by omega, fun _ => ⟨by omega, fun _ => ⟨by omega, ?_⟩⟩⟩⟩
  exact fun _ _ => hP _

/-! ## Ids below the counters -/

/-- The id of the row a record is about. -/
def Record.id? : Record → Option UInt32
  | policyPut _ => none
  | lifePut id _ _ _ | inodeDelete id | namePut id _ _ _ _ | nameDelete id | dirPut id _ _ _ _
  | rootPut id _ | rootDelete id | inodePut id _ _ _ _ | linkPut id _ | linkDelete id
  | workTreePut id _ _ _ | workTreeDelete id | docPut id _ _ | docDelete id | docDormant id _
  | docForget id => some id

/-- The other ids of a record are below the counters, and its count and
sequence within them. -/
def Record.Refers (c : Counters) (sequence : UInt64) : Record → Prop
  | lifePut _ _ _ names => names ≤ c.name
  | namePut _ parent child _ _ =>
    parent < c.inode ∧ (child < c.inode ∨ (Kind.from_ignored_child child).isSome)
  | dirPut _ name _ _ retained_at =>
    (∀ n ∈ name, n < c.name) ∧ ∀ n ∈ retained_at, n ≤ sequence
  | inodePut _ _ _ doc _ => ∀ n ∈ doc, n < c.doc
  | docPut _ references _ => references ≤ c.inode
  | _ => True

/-- **Every id of a record is below its counter.** -/
def Record.Within (c : Counters) (sequence : UInt64) (r : Record) : Prop :=
  (∀ id ∈ r.id?, ∀ n ∈ r.limit c, id < n) ∧ r.Refers c sequence

theorem optional_mem {n m : UInt32} : m ∈ optional n ↔ n ≠ NONE ∧ n = m := by
  unfold optional
  split <;> simp_all

theorem optional64_mem {n m : UInt64} : m ∈ optional64 n ↔ n ≠ NONE64 ∧ n = m := by
  unfold optional64
  split <;> simp_all

theorem wp_deleted {P : Unit → Prop} (h : P ()) : wp (deleted b) P := by
  simp only [deleted, wp_bind, wp_ensure, wp_range]
  exact fun hlen => ⟨by omega, fun _ => h⟩

variable {c : Counters} {sequence : UInt64}

/-- A record that is accepted has its own id where every record has it, and the
bounds of its other ids have been checked. -/
theorem wp_record (hb : 16 ≤ b.length) :
    wp (record b c sequence) fun r =>
      (∀ id ∈ r.id?, id = u32 (slice b 8 4)) ∧ r.Refers c sequence := by
  simp only [record, wp_bind, wp_u32_at, wp_byte_at]
  refine ⟨by omega, by omega, ?_⟩
  split
  case h_12 =>
    simp only [wp_bind, wp_byte_at, wp_ensure, wp_range]
    refine fun hlen => ⟨by omega, fun _ => ⟨by omega, ?_⟩⟩
    split
    · trivial
    · simp only [wp_bind, wp_u64_at, wp_ensure, wp_pure]
      exact wp_text (by omega) fun _ _ => ⟨by omega, by omega, by simp [Record.id?], trivial⟩
  all_goals
    simp only [wp_bind, wp_u32_at, wp_u64_at, wp_byte_at, wp_ensure, wp_range, wp_pure, wp_error,
      Record.id?, Record.Refers, Option.mem_def, Option.some.injEq, forall_eq', true_and, and_true]
  case h_2 | h_4 | h_7 | h_11 | h_13 | h_15 | h_17 => exact wp_deleted trivial
  case h_1 =>
    refine fun hlen => ⟨by omega, fun _ => ⟨by omega, fun _ => ⟨by omega, fun _ => ⟨by omega, ?_⟩⟩⟩⟩
    exact fun hnames => ⟨by omega, wp_kind fun _ _ => hnames⟩
  case h_3 =>
    refine fun hlen => ⟨by omega, by omega, wp_text (by omega) ?_⟩
    exact fun _ hparent hchild _ => ⟨by omega, hparent, hchild⟩
  case h_5 =>
    refine fun hlen => ⟨by omega, by omega, by omega, by omega, fun hname _ hretained _ => ?_⟩
    refine ⟨fun n hn => ?_, fun n hn => ?_⟩
    · obtain ⟨hne, rfl⟩ := optional_mem.mp hn
      exact hname hne
    · obtain ⟨hne, rfl⟩ := optional64_mem.mp hn
      exact hretained hne
  case h_6 | h_10 => exact wp_text (by omega) (by simp)
  case h_8 => exact fun hlen => wp_hash_at (by omega) fun _ h => (by cases h)
  case h_9 =>
    refine fun hlen => ⟨by omega, wp_kind fun _ => ?_⟩
    refine ⟨by omega, by omega, by omega, by omega, by omega, by omega, by omega, by omega,
      by omega, by omega, by omega, by omega, by omega, by omega, ?_⟩
    intro _ _ _ hdoc _ _ _ n hn
    obtain ⟨hne, rfl⟩ := optional_mem.mp hn
    exact hdoc hne
  case h_14 => exact fun hlen => ⟨by omega, fun hrefs => wp_hash_at (by omega) hrefs.2⟩
  case h_16 => exact fun hlen => ⟨by omega, fun _ => wp_hash_at (by omega) trivial⟩

/-- What `decode_one` takes off the front, and what it leaves. -/
theorem wp_decode_one :
    wp (decode_one family c sequence rest) fun p =>
      p.1.family = family ∧ p.1.Within c sequence ∧ p.2.length + 16 ≤ rest.length := by
  simp only [decode_one, wp_bind, wp_ensure, wp_range, wp_byte_at, wp_u32_at, wp_pure]
  refine fun hlen => ⟨by omega, fun _ => ⟨by omega, by omega, fun _ => ⟨by omega, ?_⟩⟩⟩
  rintro ⟨_, -, _⟩
  generalize (u32 (slice rest 4 4)).toNat = len at *
  have hb : (slice rest 0 len).length = len := length_slice (by omega)
  refine ⟨by omega, by omega, wp_mono (wp_record (by omega)) ?_⟩
  rintro r ⟨hid, hrefers⟩ hfamily hlimit
  refine ⟨by omega, hfamily, ⟨fun id h n hn => ?_, hrefers⟩, ?_⟩
  · rw [hid id h]
    exact hlimit n hn
  · rw [length_slice (by omega)]
    omega

/-- **The decoder ends, without a panic, and accepts only records whose ids are
below the counters.** -/
theorem wp_decode {bytes : Bytes} {count : UInt32} :
    wp (decode bytes count family c sequence) fun records =>
      records.length = count.toNat ∧ ∀ r ∈ records, r.family = family ∧ r.Within c sequence := by
  suffices h : ∀ (fuel : ℕ) (rest : Bytes) (records : List Record), rest.length < fuel →
      (∀ r ∈ records, r.family = family ∧ r.Within c sequence) →
      wp (decode_from count family c sequence fuel rest records) fun records =>
        records.length = count.toNat ∧ ∀ r ∈ records, r.family = family ∧ r.Within c sequence from
    h _ _ _ (Nat.lt_succ_self _) (by simp)
  intro fuel
  induction fuel with
  | zero => exact fun rest _ h => absurd h (not_lt_zero)
  | succ fuel ih =>
    intro rest records hfuel hrecords
    rw [decode_from]
    split
    · simp only [wp_bind, wp_ensure, wp_pure]
      exact fun hcount => ⟨hcount, hrecords⟩
    · rw [wp_bind]
      refine wp_mono wp_decode_one ?_
      rintro ⟨r, _⟩ ⟨hfamily, hwithin, hless⟩
      simp only [wp_bind, wp_ensure]
      intro _
      refine ih _ _ (by simp only at hless; omega) fun r' hr' => ?_
      rcases mem_append.mp hr' with h | h
      · exact hrecords r' h
      · obtain rfl := mem_singleton.mp h
        exact ⟨hfamily, hwithin⟩

/-! ## Fields where the decoder looks for them -/

@[simp]
theorem length_put32 (n : UInt32) : (put32 n).length = 4 := length_toLe 4 _

@[simp]
theorem length_put64 (n : UInt64) : (put64 n).length = 8 := length_toLe 8 _

@[simp]
theorem u32_put32 (n : UInt32) : u32 (put32 n) = n := by
  rw [u32, put32, ofLe_toLe _ _ n.toNat_lt]
  exact UInt32.ofNat_toNat

@[simp]
theorem u64_put64 (n : UInt64) : u64 (put64 n) = n := by
  rw [u64, put64, ofLe_toLe _ _ n.toNat_lt]
  exact UInt64.ofNat_toNat

/-- A field of its own width at the front. -/
@[simp]
theorem slice_front {a : Bytes} (h : a.length = n) : slice (a ++ rest) 0 n = a := by
  subst h
  rw [slice_append_left (by omega)]
  exact take_length

@[simp]
theorem slice_whole {a : Bytes} (h : a.length = n) : slice a 0 n = a := by
  subst h
  exact take_length

@[simp]
theorem slice_cons {x : UInt8} {l : Bytes} {i : ℕ} : slice (x :: l) (i + 1) n = slice l i n := rfl

@[simp]
theorem kind_byte (k : Kind) : kind k.byte = .ok k := by
  cases k <;> rfl

@[simp]
theorem from_bits_byte (state : ContentState) : ContentState.from_bits state.byte = state := by
  cases state <;> rfl

@[simp]
theorem from_byte_byte (k : WorkTreeKind) : WorkTreeKind.from_byte k.byte = some k := by
  cases k <;> rfl

theorem optional_getD {n : Option UInt32} (h : n ≠ some NONE) : optional (n.getD NONE) = n := by
  cases n with
  | none => rfl
  | some n => exact if_neg fun e => h (congrArg some e)

theorem optional64_getD {n : Option UInt64} (h : n ≠ some NONE64) :
    optional64 (n.getD NONE64) = n := by
  cases n with
  | none => rfl
  | some n => exact if_neg fun e => h (congrArg some e)

/-- The text of an encoded record. -/
theorem wp_text_string {t : Bytes} {count_at start : ℕ} {P : Bytes → Prop}
    (hlen : t.length + 1 < 2 ^ 32) (hb : count_at + 4 ≤ b.length)
    (hcount : slice b count_at 4 = put32 (.ofNat (t.length + 1))) (ht : slice b start t.length = t)
    (hP : P t) : wp (text b count_at start) P := by
  have hn : (UInt32.ofNat (t.length + 1)).toNat = t.length + 1 := by
    rw [UInt32.toNat_ofNat']
    exact Nat.mod_eq_of_lt hlen
  simp only [text, wp_bind, wp_u32_at, wp_ensure, wp_byte_at, wp_range, wp_pure, hcount, u32_put32, hn]
  refine ⟨hb, fun hstop hcount => ⟨by omega, fun _ => ⟨by omega, fun _ => ⟨by omega, fun _ _ => ?_⟩⟩⟩⟩
  rw [show start + (t.length + 1) - 1 - start = t.length by omega, ht]
  exact hP

theorem wp_hash_field {i : ℕ} {hash : Hash} {P : Hash → Prop} (hb : i + 16 ≤ b.length)
    (h : slice b i 16 = hash.1) (hP : P hash) : wp (hash_at b i : Guarded DecodeError Hash) P := by
  refine wp_hash_at hb ?_
  rwa [show (⟨slice b i 16, length_slice hb⟩ : Hash) = hash from Subtype.ext h]

/-- **The frame of an encoded record**: a header of eight bytes, then its fields. -/
structure Framed (r : Record) (h fields : Bytes) : Prop where
  fields_eq : r.fields = .ok fields
  reserved : r.reserved = false
  length : h.length = 8
  op : ∀ rest, (h ++ rest)[0]? = some r.op
  flags : ∀ rest, (h ++ rest)[1]? = some r.header_flags
  zeros : ∀ rest, slice (h ++ rest) 2 2 = [0, 0]
  len : ∀ rest, slice (h ++ rest) 4 4 =
    put32 (.ofNat (8 + (fields ++ padding fields.length).length))
  small : 8 + (fields ++ padding fields.length).length < 2 ^ 32

theorem Record.framed (hb : r.encode = .ok b) :
    ∃ h fields, Framed r h fields ∧ b = h ++ (fields ++ padding fields.length) := by
  simp only [encode, bind_eq_ok, ensure_eq_ok, pure_eq_ok] at hb
  obtain ⟨_, hreserved, fields, hfields, _, hsmall, rfl⟩ := hb
  refine ⟨[r.op, r.header_flags, 0, 0] ++
    put32 (.ofNat (8 + (fields ++ padding fields.length).length)), fields, ?_, by simp⟩
  exact {
    fields_eq := hfields
    reserved := hreserved
    length := by simp
    op := fun _ => rfl
    flags := fun _ => rfl
    zeros := fun _ => rfl
    len := fun rest => by rw [append_assoc]; exact slice_front (length_put32 _)
    small := hsmall
  }

attribute [local simp] slice_append padding in
/-- **An encoded record is decoded as itself**, or not at all. -/
theorem wp_record_encode (hb : r.encode = .ok b) : wp (record b c sequence) (· = r) := by
  obtain ⟨h, _, hr, rfl⟩ := Record.framed hb
  have hh := hr.length
  have hop := hr.op
  have hreserved := hr.reserved
  have hfields := hr.fields_eq
  have hflags := hr.flags
  clear hb
  cases r
  case namePut id parent child name revealed =>
    simp only [Record.fields, bind_eq_ok, pure_eq_ok, string, ensure_eq_ok] at hfields
    obtain ⟨_, ⟨_, hlen, rfl⟩, rfl⟩ := hfields
    simp only [record, wp_bind, wp_u32_at, wp_byte_at, hop, Record.op, Option.getD_some,
      UInt8.reduceToNat, wp_ensure]
    refine ⟨by simp [hh]; omega, by simp, fun _ => ⟨by simp [hh]; omega, by simp [hh]; omega, ?_⟩⟩
    refine wp_text_string hlen (by simp [hh]; omega) (by simp [hh])
      (by simp [hh]) fun _ _ _ => ?_
    simp only [wp_pure, hflags]
    refine ⟨by simp [hh]; omega, ?_⟩
    cases revealed <;> simp [hh, Record.header_flags]
  case workTreePut id k common_id path =>
    simp only [Record.fields, bind_eq_ok, pure_eq_ok, string, ensure_eq_ok] at hfields
    obtain ⟨_, ⟨_, hlen, rfl⟩, rfl⟩ := hfields
    simp only [record, wp_bind, wp_u32_at, wp_byte_at, hop, Record.op, Option.getD_some,
      UInt8.reduceToNat, wp_ensure, wp_range]
    refine ⟨by simp [hh]; omega, by simp, fun _ => ⟨by simp [hh]; omega, fun _ =>
      ⟨by simp [hh]; omega, ?_⟩⟩⟩
    have hkind : ∀ rest : Bytes, (h ++ (put32 id ++ (k.byte :: rest)))[12]? = some k.byte := by
      simp [getElem?_append_right, hh]
    simp only [append_assoc, cons_append, hkind, Option.getD_some, from_byte_byte]
    simp only [wp_bind, wp_ensure, wp_u64_at, wp_pure]
    refine wp_text_string hlen (by simp [hh]; omega) (by simp [hh])
      (by simp [hh]) fun _ => ⟨by simp [hh]; omega, by simp [hh]; omega, ?_⟩
    simp [hh]
  case rootPut id path | linkPut id target =>
    simp only [Record.fields, bind_eq_ok, pure_eq_ok, string, ensure_eq_ok] at hfields
    obtain ⟨_, ⟨_, hlen, rfl⟩, rfl⟩ := hfields
    simp only [record, wp_bind, wp_u32_at, wp_byte_at, hop, Record.op, Option.getD_some,
      UInt8.reduceToNat]
    refine ⟨by simp [hh]; omega, by simp, wp_text_string hlen (by simp [hh]; omega)
      (by simp [hh]) (by simp [hh]) ?_⟩
    simp [hh]
  all_goals
    simp only [Record.fields, delete, pure_eq_ok] at hfields
    subst hfields
    simp only [record, wp_bind, wp_u32_at, wp_byte_at, hop, Record.op]
  case dirPut id name entries flags retained_at =>
    obtain ⟨⟨hname, hentries⟩, hretained⟩ : (name ≠ some NONE ∧ entries ≠ some NONE) ∧
        retained_at ≠ some NONE64 := by
      simpa [Record.reserved] using hreserved
    simp [hh, optional_getD hname, optional_getD hentries, optional64_getD hretained]
  case inodePut id k state doc stat =>
    have hdoc : doc ≠ some NONE := by simpa [Record.reserved] using hreserved
    simp [hh, optional_getD hdoc]
  case policyPut hash =>
    simp only [hash.2, padding]
    simp [hh, hash.2]
    exact wp_hash_field (by simp [hh, hash.2]) (by simp [hh, hash.2]) rfl
  case docPut id references hash =>
    simp [hh, hash.2]
    exact fun _ _ => wp_hash_field (by simp [hh, hash.2]) (by simp [hh, hash.2]) rfl
  case docDormant id hash =>
    simp [hh, hash.2]
    exact fun _ => wp_hash_field (by simp [hh, hash.2]) (by simp [hh, hash.2]) rfl
  all_goals simp [deleted, hh]

/-! ## Records one after another -/

theorem Framed.length_eq {h fields : Bytes} (hr : Framed r h fields) :
    (h ++ (fields ++ padding fields.length)).length =
      8 + (fields ++ padding fields.length).length := by
  rw [length_append, hr.length]

/-- An encoded record that is accepted alone is accepted in front of others. -/
theorem decode_one_encode {p : Record × Bytes}
    (hb : r.encode = .ok b) (hp : decode_one family c sequence b = .ok p) :
    decode_one family c sequence (b ++ rest) = .ok (r, rest) := by
  have hself : wp (record b c sequence) (· = r) := wp_record_encode hb
  obtain ⟨h, fields, hr, rfl⟩ := Record.framed hb
  have hlen : (u32 (slice (h ++ (fields ++ padding fields.length)) 4 4)).toNat =
      (h ++ (fields ++ padding fields.length)).length := by
    rw [hr.len, u32_put32, hr.length_eq, UInt32.toNat_ofNat']
    exact Nat.mod_eq_of_lt hr.small
  generalize h ++ (fields ++ padding fields.length) = b at *
  simp only [decode_one, bind_eq_ok, ensure_eq_ok, range_eq_ok, byte_at_eq_ok, u32_at_eq_ok,
    pure_eq_ok, exists_const, and_assoc, exists_eq_left', exists_and_left, hlen] at hp
  obtain ⟨_, _, h2, _, _, h1, _, h16, hmod, _, _, _, r', hr', hfamily, hlimit, _, _⟩ := hp
  have hwhole : slice b 0 b.length = b := slice_whole rfl
  rw [hwhole] at hr' hlimit
  have hsame := wp_of_ok hself hr'
  obtain rfl : r' = r := hsame
  have hfront : ∀ i n, i + n ≤ b.length → slice (b ++ rest) i n = slice b i n := fun i n h =>
    slice_append_left h
  simp only [decode_one, bind_eq_ok, ensure_eq_ok, range_eq_ok, byte_at_eq_ok, u32_at_eq_ok,
    pure_eq_ok, exists_const, and_assoc, exists_eq_left', exists_and_left, length_append,
    hfront 2 2 (by omega), hfront 4 4 (by omega), hlen, hfront 0 b.length (by omega), hwhole,
    getElem?_append_left (show 0 < b.length by omega),
    getElem?_append_left (show 1 < b.length by omega)]
  refine ⟨by omega, by omega, h2, by omega, by omega, h1, by omega, h16, hmod, by omega, by omega,
    by omega, r', hr', hfamily, hlimit, by omega, ?_⟩
  rw [slice_append le_rfl, Nat.sub_self, slice_whole (by omega)]

/-- What `decode` accepts as one record is one record. -/
theorem decode_one_of_decode {rs : List Record}
    (h : decode b 1 family c sequence = .ok rs) (hb : b ≠ []) :
    ∃ p, decode_one family c sequence b = .ok p := by
  rw [decode, decode_from, if_neg hb, bind_eq_ok] at h
  obtain ⟨p, hp, -⟩ := h
  exact ⟨p, hp⟩

theorem Record.encode_ne_nil (hb : r.encode = .ok b) : b ≠ [] := by
  obtain ⟨h, _, hr, rfl⟩ := r.framed hb
  have := hr.length
  rintro e
  simp [append_eq_nil_iff.mp e] at this

/-- **Records that are each accepted alone are accepted as a block**, and come
out as they are. -/
theorem decode_encode {records : List Record} {encoded : List Bytes}
    {count : UInt32} (hcount : records.length = count.toNat)
    (h : List.Forall₂ (fun r b => r.encode = .ok b ∧
      ∃ rs, decode b 1 family c sequence = .ok rs) records encoded) :
    decode encoded.flatten count family c sequence = .ok records := by
  suffices hloop : ∀ (fuel : ℕ) (done : List Record), encoded.flatten.length < fuel →
      done.length + records.length = count.toNat →
      decode_from count family c sequence fuel encoded.flatten done = .ok (done ++ records) from
    hloop _ [] (Nat.lt_succ_self _) (by simpa using hcount)
  clear hcount
  induction h with
  | nil =>
    intro fuel done hfuel hdone
    obtain ⟨fuel, rfl⟩ : ∃ k, fuel = k + 1 := ⟨fuel - 1, by omega⟩
    rw [decode_from]
    simpa using hdone
  | @cons r b records encoded hr _ ih =>
    intro fuel done hfuel hdone
    obtain ⟨fuel, rfl⟩ : ∃ k, fuel = k + 1 := ⟨fuel - 1, by omega⟩
    obtain ⟨hb, rs, hrs⟩ := hr
    obtain ⟨p, hp⟩ := decode_one_of_decode hrs (Record.encode_ne_nil hb)
    have hne : b ++ encoded.flatten ≠ [] := by simp [Record.encode_ne_nil hb]
    have hpos := length_pos_of_ne_nil (Record.encode_ne_nil hb)
    rw [flatten_cons, length_append] at hfuel
    rw [length_cons] at hdone
    rw [flatten_cons, decode_from, if_neg hne, decode_one_encode hb hp]
    have hnext := ih fuel (done ++ [r]) (by omega) (by simp; omega)
    simp only [bind_eq_ok, ensure_eq_ok]
    exact ⟨_, rfl, (), by omega, by simpa using hnext⟩

end Ferret.Catalog
