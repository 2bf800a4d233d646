import Ferret.Segment.Spill

/-!
# Spilling is invisible

Put what has left a spilling writer's buffers back in front of them, and it is
an in-memory writer: every call commutes with that. What has left is known
from three strings, the bytes of the three sections gone so far. `Spilt` says
that the counts, the sums and the files agree with them, whole chunks at a
time, which is why the sums of a section are those of its two parts. A spill
moves bytes from one side to the other, and finishing finds in the files what
an in-memory writer would have written, so the two files are one.
-/

namespace Ferret

open Sparse List Guarded Writer

/-! ## Chunks of two parts -/

theorem chunks_add {m n : ℕ} (h : CHUNK ∣ m) : chunks (m + n) = chunks m + chunks n := by
  obtain ⟨k, rfl⟩ := h
  simp only [chunks, CHUNK]
  omega

/-- Whole chunks and the rest are cut apart. -/
theorem pieces_append {a b : Bytes} (h : CHUNK ∣ a.length) :
    pieces (a ++ b) = pieces a ++ pieces b := by
  have hcount : chunks a.length * CHUNK = a.length := by
    obtain ⟨k, hk⟩ := h
    rw [hk]
    simp only [chunks, CHUNK]
    omega
  rw [pieces, length_append, chunks_add h, range_add, map_append, map_map]
  refine congrArg₂ (· ++ ·) (map_congr_left fun i hi => ?_) (map_congr_left fun i _ => ?_)
  · refine slice_append_left ?_
    have hlt : i + 1 ≤ chunks a.length := mem_range.mp hi
    calc i * CHUNK + CHUNK = (i + 1) * CHUNK := (Nat.add_one_mul i CHUNK).symm
      _ ≤ chunks a.length * CHUNK := Nat.mul_le_mul_right _ hlt
      _ = a.length := hcount
  · show slice (a ++ b) ((chunks a.length + i) * CHUNK) CHUNK = slice b (i * CHUNK) CHUNK
    rw [add_mul, hcount, slice_append (le_self_add), Nat.add_sub_cancel_left]

theorem chunk_sums_append (C : Checksum) {a b : Bytes} (h : CHUNK ∣ a.length) :
    chunk_sums C (a ++ b) = chunk_sums C a ++ chunk_sums C b := by
  rw [chunk_sums, pieces_append h, flatMap_append]
  rfl

/-! ## What a transfer leaves in a file -/

/-- A file with a string at an offset, and otherwise as it was. -/
structure Transferred (file : Bytes) (offset : ℕ) (bytes file' : Bytes) : Prop where
  holds : Holds file' offset bytes
  keeps : ∀ o c, Holds file o c → o + c.length ≤ offset ∨ offset + bytes.length ≤ o →
    Holds file' o c
  length : file'.length ≤ max file.length (offset + bytes.length)

theorem Transferred.nil (file : Bytes) (offset : ℕ) : Transferred file offset [] file where
  holds := holds_nil
  keeps _ _ h _ := h
  length := le_max_left _ _

theorem transferred_write (file : Bytes) (offset : ℕ) (bytes : Bytes) :
    Transferred file offset bytes (Sparse.write 0 file offset bytes) where
  holds := holds_write
  keeps _ _ h hapart := h.write hapart
  length := length_write.le

/-- A transfer in two parts. -/
theorem Transferred.append {file file₁ file₂ a b : Bytes} {offset : ℕ}
    (h : Transferred file offset a file₁) (h' : Transferred file₁ (offset + a.length) b file₂) :
    Transferred file offset (a ++ b) file₂ where
  holds := (h'.keeps _ _ h.holds (.inl le_rfl)).append h'.holds
  keeps o c hc hapart := by
    rw [length_append] at hapart
    exact h'.keeps o c (h.keeps o c hc (by omega)) (by omega)
  length := by
    have := h.length
    have := h'.length
    rw [length_append]
    omega

section

variable {σ ε : Type} (pace : ℕ → σ → Except ε σ)

/-- The host's pace refuses somewhere, and no other error is met. -/
def Refused : Halt ε → Prop
  | .pace e => ∃ n s, pace n s = .error e
  | .recordLength => False

variable {pace}

theorem paced_spec (n : ℕ) (s : σ) : Guarded.ends (Refused pace) (paced pace n s) fun _ => True := by
  unfold paced
  split
  · trivial
  · rename_i e he
    exact ⟨n, s, he⟩

theorem write_paced_nil (file : Bytes) (offset : ℕ) (s : σ) :
    write_paced pace file [] offset s = .ok (file, s) := by
  rw [write_paced, dif_pos rfl]

theorem write_paced_spec (file bytes : Bytes) (offset : ℕ) (s : σ) :
    Guarded.ends (Refused pace) (write_paced pace file bytes offset s) fun q =>
      Transferred file offset bytes q.1 := by
  induction hn : bytes.length using Nat.strong_induction_on generalizing file bytes offset s with
  | _ n ih =>
    by_cases hnil : bytes = []
    · rw [hnil, write_paced_nil]
      exact .nil _ _
    · rw [write_paced, dif_neg hnil, ends_bind]
      refine ends_mono (paced_spec _ s) fun s _ => ?_
      have hpos := length_pos_iff.mpr hnil
      have hfirst := transferred_write file offset (bytes.take TRANSFER)
      rcases lt_or_ge TRANSFER bytes.length with hlong | hshort
      · have hlen : (bytes.take TRANSFER).length = TRANSFER := by
          rw [length_take, min_eq_left hlong.le]
        have hlt : (bytes.drop TRANSFER).length < n := by
          rw [length_drop, TRANSFER]
          omega
        refine ends_mono (ih _ hlt _ _ (offset + TRANSFER) s rfl) fun q hq => ?_
        rw [← take_append_drop TRANSFER bytes]
        exact hfirst.append (hlen.symm ▸ hq)
      · rw [drop_eq_nil_of_le hshort, write_paced_nil]
        rwa [take_of_length_le hshort] at hfirst ⊢

/-- The scratch file's bytes from one on arrive in the file. -/
theorem copy_from_spec {scratch dp : Bytes} (hdp : Holds scratch 0 dp) (file : Bytes)
    (start at_ : ℕ) (s : σ) :
    Guarded.ends (Refused pace) (copy_from pace scratch dp.length file start at_ s) fun q =>
      Transferred file at_ (dp.drop start) q.1 := by
  induction hn : dp.length - start using Nat.strong_induction_on generalizing file start at_ s with
  | _ n ih =>
    rw [copy_from]
    by_cases hlt : start < dp.length
    · have hsome : 0 < SPILL := by decide
      have hne : dp ≠ [] := ne_nil_of_length_pos (by omega)
      set m := min (dp.length - start) SPILL
      have hm : start + m ≤ dp.length := by omega
      have hlen : ((dp.drop start).take m).length = m := by
        rw [length_take, length_drop]
        omega
      have hread : slice scratch start m = (dp.drop start).take m := by
        have hat := (hdp.stretch start m).slice
        rwa [hlen, zero_add] at hat
      rw [dif_pos hlt]
      simp only [ends_bind, ends_claim]
      refine ends_mono (paced_spec _ s) fun s _ => ⟨?_, ?_⟩
      · exact hm.trans ((zero_add _).symm.trans_le (hdp.length_le hne))
      · rw [hread]
        refine ends_mono (write_paced_spec _ _ _ s) fun q hq => ?_
        refine ends_mono (ih _ (by omega) q.1 (start + m) (at_ + m) q.2 rfl) fun r hr => ?_
        rw [← take_append_drop m (dp.drop start), drop_drop]
        exact hq.append (hlen.symm ▸ hr)
    · rw [dif_neg hlt, drop_eq_nil_of_le (Nat.not_lt.mp hlt)]
      exact .nil _ _

end

/-! ## What has left, put back -/

/-- An encoder with its drained bytes in front. -/
def Encoder.put_back (df : Bytes) (e : Encoder) : Encoder := { e with bytes := df ++ e.bytes }

def Singles.put_back (df : Bytes) (t : Singles) : Singles :=
  { t with encoder := t.encoder.put_back df }

/-- A writer with what has left its buffers in front of them. -/
def Writer.put_back (db dp df : Bytes) (w : Writer) : Writer :=
  { w with
    blocks := db ++ w.blocks
    postings := dp ++ w.postings
    singles := w.singles.map (Singles.put_back df) }

section

variable {db dp df : Bytes}

theorem Encoder.push_put_back (e : Encoder) (record : Record) :
    (e.put_back df).push record = (e.push_from df.length record).put_back df := by
  unfold Encoder.push Encoder.push_from Encoder.put_back
  simp only [Encoder.len, length_append]
  split_ifs <;> simp only [append_assoc]

theorem Singles.flush_put_back (bound : Option Record) (pending : List Record) (e : Encoder) :
    flush bound pending (e.put_back df)
      = ((flush_from df.length bound pending e).1,
        (flush_from df.length bound pending e).2.put_back df) := by
  induction pending generalizing e with
  | nil => rfl
  | cons record _ ih =>
    rw [flush, flush_from]
    by_cases hb : bound.all (record < ·)
    · rw [if_pos hb, if_pos hb, Encoder.push_put_back]
      exact ih _
    · rw [if_neg hb, if_neg hb]

theorem Singles.flush_below_put_back (t : Singles) (bound : Option Record) :
    (t.put_back df).flush_below bound = (t.flush_below_from df.length bound).put_back df := by
  unfold flush_below flush_below_from put_back
  simp only [flush_put_back]

theorem Singles.seal_put_back (t : Singles) :
    (t.put_back df).seal_pending = t.seal_pending.put_back df := by
  unfold seal_pending put_back
  show (if t.sealed then _ else _) = _
  split_ifs <;> rfl

theorem Writer.put_term_put_back (w : Writer) (term : Bytes) :
    (w.put_back db dp df).put_term term = (w.put_term term).put_back db dp df := by
  unfold put_term
  show (if 0 < w.in_block then _ else _) = _
  split_ifs
  · simp only [Writer.put_back, append_assoc]
  · rfl

theorem Writer.put_docs_put_back (P : Intpack) (w : Writer) (entry : ℕ) (docs : List ℕ) :
    (w.put_back db dp df).put_docs P (db.length + entry) docs
      = (w.put_docs P entry docs).put_back db dp df := by
  unfold put_docs
  split
  · simp only [Writer.put_back, append_assoc, length_append, Nat.add_sub_add_left]
  · simp only [Writer.put_back, append_assoc]

end

/-! ## Calls -/

namespace Spilling

/-- The in-memory writer a spilling one stands for. -/
def full (S : Spilling) (db dp df : Bytes) : Writer := S.writer.put_back db dp df

/-- The counts of a spilling writer are those of what has left it. -/
structure Counts (S : Spilling) (db dp df : Bytes) : Prop where
  blocks : S.spill.blocks_written = db.length
  postings : S.spill.postings_written = dp.length
  records : S.spill.drained = df.length

section

variable {S : Spilling} {db dp df : Bytes}

theorem Counts.lengths (h : S.Counts db dp df) :
    S.lengths = ((S.full db dp df).blocks.length, (S.full db dp df).postings.length) := by
  rw [Spilling.lengths, h.blocks, h.postings, ← length_append, ← length_append]
  rfl

theorem open_block_full (h : S.Counts db dp df) (term : Bytes) :
    (S.full db dp df).open_block term = (S.open_block term).full db dp df := by
  unfold open_block
  rw [h.lengths]
  rfl

theorem push_entry_full (h : S.Counts db dp df) (P : Intpack) (term : Bytes) (docs : List ℕ) :
    (S.full db dp df).push_entry P term docs
      = ((S.push_entry P term docs).1.full db dp df, (S.push_entry P term docs).2) := by
  have hready : (if (S.full db dp df).sizes.terms = 0 ∨ (S.full db dp df).in_block = BLOCK
      then (S.full db dp df).open_block term else S.full db dp df)
      = (if S.writer.sizes.terms = 0 ∨ S.writer.in_block = BLOCK then S.open_block term else S).full
        db dp df := by
    show (if S.writer.sizes.terms = 0 ∨ S.writer.in_block = BLOCK then _ else _) = _
    split_ifs
    · exact open_block_full h term
    · rfl
  unfold Writer.push_entry push_entry
  rw [hready]
  generalize (if S.writer.sizes.terms = 0 ∨ S.writer.in_block = BLOCK then S.open_block term else S)
    = T
  have hentry : (T.full db dp df).blocks.length = db.length + T.writer.blocks.length :=
    length_append
  have hput : ((T.full db dp df).put_term term).put_docs P (T.full db dp df).blocks.length docs
      = ((T.writer.put_term term).put_docs P T.writer.blocks.length docs).put_back db dp df := by
    rw [hentry, ← put_docs_put_back, ← put_term_put_back]
    rfl
  simp only [hput]
  refine Prod.ext rfl ?_
  show (db ++ _).length - _ = _
  rw [hentry, length_append, Nat.add_sub_add_left]
  rfl

/-- **A push of a spilling writer is one of the writer it stands for.** -/
theorem push_full (h : S.Counts db dp df) (P : Intpack) (fingerprint : Bytes → ℕ) (term : Bytes)
    (docs : List ℕ) :
    (S.full db dp df).push P fingerprint term docs
      = (S.push P fingerprint term docs).map fun q => (q.1.full db dp df, q.2) := by
  have hentry := push_entry_full h P term docs
  have hsingles : (S.full db dp df).singles = S.writer.singles.map (Singles.put_back df) := rfl
  have hcheck : check_term (S.full db dp df).first (S.full db dp df).last (S.full db dp df).pushed
      (S.full db dp df).last_term term docs
      = check_term S.writer.first S.writer.last S.writer.pushed S.writer.last_term term docs := rfl
  simp only [Writer.push, push, hcheck, hsingles]
  cases check_term S.writer.first S.writer.last S.writer.pushed S.writer.last_term term docs with
  | error e => rfl
  | ok u =>
    simp only [bind, Except.bind]
    cases hs : S.writer.singles with
    | none => exact congrArg Except.ok hentry
    | some t =>
      simp only [Option.map_some]
      by_cases hsealed : t.sealed = true
      · rw [if_pos hsealed]
        exact if_pos hsealed
      · rw [if_neg hsealed]
        refine (if_neg hsealed).trans ?_
        rcases docs with - | ⟨_, - | ⟨_, docs⟩⟩
        · exact congrArg Except.ok hentry
        · rfl
        · exact congrArg Except.ok hentry

theorem push_record_full (h : S.Counts db dp df) (fp doc : ℕ) :
    (S.full db dp df).push_record fp doc
      = (S.push_record fp doc).map fun q => q.full db dp df := by
  have hsingles : (S.full db dp df).singles = S.writer.singles.map (Singles.put_back df) := rfl
  simp only [Writer.push_record, push_record, hsingles]
  cases hs : S.writer.singles with
  | none => rfl
  | some t =>
    simp only [Option.map_some, Singles.seal_put_back, Singles.flush_below_put_back, h.records]
    by_cases hdoc : S.writer.first ≤ doc ∧ doc ≤ S.writer.last
    · rw [if_neg (not_not.mpr hdoc)]
      refine (if_neg (not_not.mpr hdoc)).trans ?_
      by_cases hcarried : t.carried.any (toLex (fp, doc - S.writer.first) ≤ ·) = true
      · rw [if_pos hcarried]
        exact if_pos hcarried
      · rw [if_neg hcarried]
        refine (if_neg hcarried).trans (congrArg Except.ok ?_)
        refine congrArg (fun e => ({ S.full db dp df with
          singles := some { pending := _, sealed := _, encoder := e, carried := _ } } : Writer)) ?_
        exact Encoder.push_put_back _ _
    · rw [if_pos hdoc]
      exact if_pos hdoc

theorem seal_records_full (h : S.Counts db dp df) :
    (S.full db dp df).seal_records = S.seal_records.full db dp df := by
  have hsingles : (S.writer.singles.map (Singles.put_back df)).map
      (fun t => t.seal_pending.flush_below none)
      = (S.writer.singles.map fun t => t.seal_pending.flush_below_from S.spill.drained none).map
        (Singles.put_back df) := by
    rw [Option.map_map, Option.map_map]
    refine congrArg (fun f => S.writer.singles.map f) (funext fun t => ?_)
    show (t.put_back df).seal_pending.flush_below none = _
    rw [Singles.seal_put_back, Singles.flush_below_put_back, ← h.records]
    rfl
  exact congrArg (fun o => ({ S.full db dp df with singles := o } : Writer)) hsingles

end

/-! ### What a call leaves as it was -/

/-- A call leaves the files, and once the dictionary is closed the lengths of
the sections before the records. -/
structure Continues (S S' : Spilling) : Prop where
  spill : S'.spill = S.spill
  codec : S'.writer.codec = S.writer.codec
  singles : S'.writer.singles.isSome = S.writer.singles.isSome
  blocks : S.writer.blocks.length ≤ S'.writer.blocks.length
  postings : S.writer.postings.length ≤ S'.writer.postings.length
  sealed : ∀ t, S.writer.singles = some t → t.sealed = true → S'.lengths = S.lengths
    ∧ ∃ t', S'.writer.singles = some t' ∧ t'.sealed = true

theorem put_grows (P : Intpack) (w : Writer) (entry : ℕ) (term : Bytes) (docs : List ℕ) :
    ((w.put_term term).put_docs P entry docs).codec = w.codec
      ∧ ((w.put_term term).put_docs P entry docs).singles = w.singles
      ∧ w.blocks.length ≤ ((w.put_term term).put_docs P entry docs).blocks.length
      ∧ w.postings.length ≤ ((w.put_term term).put_docs P entry docs).postings.length := by
  obtain ⟨_, -, h₁⟩ := w.put_term_eq term
  obtain ⟨_, -, h₂⟩ := (w.put_term term).put_docs_eq (P := P) entry docs
  rw [h₂, h₁]
  refine ⟨rfl, rfl, ?_, ?_⟩
  · show w.blocks.length ≤ (w.blocks ++ _ ++ _).length
    rw [length_append, length_append]
    omega
  · show w.postings.length ≤ (w.postings ++ _).length
    rw [length_append]
    omega

theorem push_entry_continues (P : Intpack) (S : Spilling) (term : Bytes) (docs : List ℕ)
    (hopen : ∀ t, S.writer.singles = some t → t.sealed = false) :
    S.Continues (S.push_entry P term docs).1 := by
  have hready : ∀ T, T = (if S.writer.sizes.terms = 0 ∨ S.writer.in_block = BLOCK
      then S.open_block term else S) → T.spill = S.spill ∧ T.writer.codec = S.writer.codec
        ∧ T.writer.singles = S.writer.singles ∧ T.writer.blocks = S.writer.blocks
        ∧ T.writer.postings = S.writer.postings := by
    intro T hT
    rw [hT]
    split_ifs <;> exact ⟨rfl, rfl, rfl, rfl, rfl⟩
  unfold push_entry
  generalize hT : (if S.writer.sizes.terms = 0 ∨ S.writer.in_block = BLOCK
    then S.open_block term else S) = T
  obtain ⟨hspill, hcodec, hsingles, hblocks, hpostings⟩ := hready T hT.symm
  obtain ⟨hc, hs, hb, hp⟩ := put_grows P T.writer T.writer.blocks.length term docs
  constructor
  · exact hspill
  · exact hc.trans hcodec
  · exact congrArg Option.isSome (hs.trans hsingles)
  · exact hblocks ▸ hb
  · exact hpostings ▸ hp
  · intro t ht hsealed
    rw [hopen t ht] at hsealed
    cases hsealed

theorem push_continues {P : Intpack} {fingerprint : Bytes → ℕ} {S S' : Spilling} {term : Bytes}
    {docs : List ℕ} {n : ℕ} (h : S.push P fingerprint term docs = .ok (S', n)) :
    S.Continues S' := by
  have hentry := push_entry_continues P S term docs
  unfold push at h
  cases hcheck : check_term S.writer.first S.writer.last S.writer.pushed S.writer.last_term term
      docs with
  | error e => simp [hcheck, bind, Except.bind] at h
  | ok u =>
    simp only [hcheck, bind, Except.bind] at h
    cases hs : S.writer.singles with
    | none =>
      simp only [hs, Except.ok.injEq] at h hentry
      have hout := hentry nofun
      rwa [h] at hout
    | some t =>
      simp only [hs] at h hentry
      split at h
      · cases h
      · rename_i hopen
        have hopen : ∀ t', some t = some t' → t'.sealed = false := by
          intro t' ht'
          cases ht'
          exact Bool.eq_false_iff.mpr hopen
        split at h
        · simp only [Except.ok.injEq, Prod.mk.injEq] at h
          obtain ⟨rfl, -⟩ := h
          refine ⟨rfl, rfl, ?_, le_rfl, le_rfl, fun t' ht' hsealed => ?_⟩
          · rw [hs]
            rfl
          · rw [hopen t' (hs.symm.trans ht')] at hsealed
            cases hsealed
        · have hout := hentry hopen
          rwa [Except.ok.inj h] at hout

theorem Singles.seal_sealed (t : Singles) : t.seal_pending.sealed = true := by
  unfold Singles.seal_pending
  split_ifs with h
  · exact h
  · rfl

theorem push_record_continues {S S' : Spilling} {fp doc : ℕ}
    (h : S.push_record fp doc = .ok S') : S.Continues S' := by
  unfold push_record at h
  cases hs : S.writer.singles with
  | none => simp [hs] at h
  | some t =>
    simp only [hs] at h
    split_ifs at h
    simp only [Except.ok.injEq] at h
    subst h
    refine ⟨rfl, rfl, ?_, le_rfl, le_rfl, fun _ _ _ => ⟨rfl, _, rfl, Singles.seal_sealed t⟩⟩
    rw [hs]
    rfl

theorem seal_records_continues (S : Spilling) : S.Continues S.seal_records := by
  refine ⟨rfl, rfl, Option.isSome_map, le_rfl, le_rfl, fun t ht _ => ⟨rfl, ?_⟩⟩
  exact ⟨_, congrArg (Option.map _) ht, Singles.seal_sealed t⟩

/-! ### What has left -/

/-- **What has left a spilling writer**: whole chunks, with their sums, to
where the files have them. -/
structure Spilt (C : Checksum) (S : Spilling) (db dp df : Bytes) : Prop where
  counts : S.Counts db dp df
  blocks_sums : S.spill.blocks_sums = chunk_sums C db
  postings_sums : S.spill.postings_sums = chunk_sums C dp
  sums : S.spill.sums = chunk_sums C df
  blocks_whole : CHUNK ∣ db.length
  postings_whole : CHUNK ∣ dp.length
  records_whole : CHUNK ∣ df.length
  codec : S.writer.singles.isSome = true ↔ S.writer.codec = .fingerprint
  sealed : df ≠ [] → ∃ t, S.writer.singles = some t ∧ t.sealed = true
  out_blocks : Holds S.spill.out S.writer.head_len db
  /-- No record leaves before the place of its section is known. -/
  out_records : Holds S.spill.out (S.writer.head_len + S.lengths.1 + S.lengths.2) df
  out_length : S.spill.out.length
    ≤ S.writer.head_len + S.lengths.1 + S.lengths.2 + df.length
  scratch : Holds S.spill.postings 0 dp

/-- The in-memory writer a spilling one stands for, with its files. -/
def Stands (C : Checksum) (S : Spilling) (w : Writer) : Prop :=
  ∃ db dp df, S.Spilt C db dp df ∧ S.full db dp df = w

theorem build_stands (C : Checksum) {first last version : ℕ} {codec : Codec} {w : Writer}
    (h : Writer.build first last version codec = .ok w) :
    ({ writer := w, spill := Spill.new } : Spilling).Stands C w := by
  unfold Writer.build at h
  by_cases hrange : last < first
  · rw [if_pos hrange] at h
    cases h
  · rw [if_neg hrange] at h
    cases h
    refine ⟨[], [], [], ⟨⟨rfl, rfl, rfl⟩, rfl, rfl, rfl, ⟨0, rfl⟩, ⟨0, rfl⟩, ⟨0, rfl⟩, ?_,
      fun h => absurd rfl h, holds_nil, holds_nil, Nat.zero_le _, holds_nil⟩, ?_⟩
    · cases codec <;> simp
    · cases codec <;> rfl

section

variable {C : Checksum} {S S' : Spilling} {db dp df : Bytes}

theorem Spilt.continues (h : S.Spilt C db dp df) (hc : S.Continues S') :
    S'.Spilt C db dp df := by
  have hhead : S'.writer.head_len = S.writer.head_len := by
    rw [Writer.head_len, Writer.sections, hc.codec]
    rfl
  have hlen : S.lengths.1 ≤ S'.lengths.1 ∧ S.lengths.2 ≤ S'.lengths.2 := by
    unfold lengths
    rw [hc.spill]
    exact ⟨Nat.add_le_add_left hc.blocks _, Nat.add_le_add_left hc.postings _⟩
  have hsealed : df ≠ [] → S'.lengths = S.lengths
      ∧ ∃ t', S'.writer.singles = some t' ∧ t'.sealed = true := by
    intro hdf
    obtain ⟨t, ht, hsealed⟩ := h.sealed hdf
    exact hc.sealed t ht hsealed
  refine ⟨?_, ?_, ?_, ?_, h.blocks_whole, h.postings_whole, h.records_whole, ?_,
    fun hdf => (hsealed hdf).2, ?_, ?_, ?_, ?_⟩
  · exact ⟨hc.spill ▸ h.counts.blocks, hc.spill ▸ h.counts.postings, hc.spill ▸ h.counts.records⟩
  · rw [hc.spill, h.blocks_sums]
  · rw [hc.spill, h.postings_sums]
  · rw [hc.spill, h.sums]
  · rw [hc.singles, hc.codec]
    exact h.codec
  · rw [hc.spill, hhead]
    exact h.out_blocks
  · by_cases hdf : df = []
    · rw [hdf]
      exact holds_nil
    · rw [hc.spill, hhead, (hsealed hdf).1]
      exact h.out_records
  · have := h.out_length
    rw [hc.spill, hhead]
    omega
  · rw [hc.spill]
    exact h.scratch

end

/-! ### A spill -/

theorem length_take_whole (bytes : Bytes) : (bytes.take (whole bytes.length)).length
    = whole bytes.length := by
  rw [length_take]
  exact min_eq_left (Nat.div_mul_le_self _ _)

theorem whole_dvd (bytes : Bytes) : CHUNK ∣ (bytes.take (whole bytes.length)).length := by
  rw [length_take_whole]
  exact Nat.dvd_mul_left _ _

section

variable {σ ε : Type} (C : Checksum) {pace : ℕ → σ → Except ε σ} {S : Spilling} {w : Writer}

theorem spill_blocks_spec (h : S.Stands C w) (s : σ) :
    Guarded.ends (Refused pace) (S.spill_blocks C pace s) fun q => q.1.Stands C w := by
  obtain ⟨db, dp, df, h, rfl⟩ := h
  unfold spill_blocks
  by_cases hfull : SPILL ≤ S.writer.blocks.length
  · rw [if_pos hfull, ends_bind]
    refine ends_mono (write_paced_spec _ _ _ s) fun q hq => ?_
    set moved := S.writer.blocks.take (whole S.writer.blocks.length) with hmoved
    have hlen : moved.length = whole S.writer.blocks.length := length_take_whole _
    have hle : moved.length ≤ S.writer.blocks.length := by
      rw [hmoved, length_take]
      omega
    have hsame : S.spill.blocks_written + moved.length + (S.writer.blocks.length - moved.length)
        = S.lengths.1 := by
      show _ = S.spill.blocks_written + S.writer.blocks.length
      omega
    refine ⟨db ++ moved, dp, df, ⟨⟨?_, h.counts.postings, h.counts.records⟩, ?_, h.postings_sums,
      h.sums, ?_, h.postings_whole, h.records_whole, h.codec, h.sealed, ?_, ?_, ?_, h.scratch⟩, ?_⟩
    · rw [length_append, ← h.counts.blocks, hlen]
    · rw [chunk_sums_append C h.blocks_whole, ← h.blocks_sums]
    · rw [length_append]
      exact Nat.dvd_add h.blocks_whole (whole_dvd _)
    · have hheld := hq.keeps _ _ h.out_blocks (.inl (by rw [h.counts.blocks]))
      refine hheld.append ?_
      rw [← h.counts.blocks]
      exact hq.holds
    · show Holds q.1 (S.writer.head_len + (S.spill.blocks_written + whole S.writer.blocks.length
        + (S.writer.blocks.drop (whole S.writer.blocks.length)).length) + S.lengths.2) df
      rw [length_drop, ← hlen, hsame]
      refine hq.keeps _ _ h.out_records (.inr ?_)
      omega
    · show q.1.length ≤ S.writer.head_len + (S.spill.blocks_written + whole S.writer.blocks.length
        + (S.writer.blocks.drop (whole S.writer.blocks.length)).length) + S.lengths.2 + df.length
      rw [length_drop, ← hlen, hsame]
      have := hq.length
      have := h.out_length
      omega
    · unfold full Writer.put_back
      simp only [append_assoc, hmoved, take_append_drop]
  · rw [if_neg hfull]
    exact ⟨db, dp, df, h, rfl⟩

theorem spill_postings_spec (h : S.Stands C w) (s : σ) :
    Guarded.ends (Refused pace) (S.spill_postings C pace s) fun q => q.1.Stands C w := by
  obtain ⟨db, dp, df, h, rfl⟩ := h
  unfold spill_postings
  by_cases hfull : SPILL ≤ S.writer.postings.length
  · rw [if_pos hfull, ends_bind]
    refine ends_mono (write_paced_spec _ _ _ s) fun q hq => ?_
    set moved := S.writer.postings.take (whole S.writer.postings.length) with hmoved
    have hlen : moved.length = whole S.writer.postings.length := length_take_whole _
    have hle : moved.length ≤ S.writer.postings.length := by
      rw [hmoved, length_take]
      omega
    have hsame : S.spill.postings_written + moved.length
        + (S.writer.postings.length - moved.length) = S.lengths.2 := by
      show _ = S.spill.postings_written + S.writer.postings.length
      omega
    refine ⟨db, dp ++ moved, df, ⟨⟨h.counts.blocks, ?_, h.counts.records⟩, h.blocks_sums, ?_,
      h.sums, h.blocks_whole, ?_, h.records_whole, h.codec, h.sealed, h.out_blocks, ?_, ?_, ?_⟩, ?_⟩
    · rw [length_append, ← h.counts.postings, hlen]
    · rw [chunk_sums_append C h.postings_whole, ← h.postings_sums]
    · rw [length_append]
      exact Nat.dvd_add h.postings_whole (whole_dvd _)
    · show Holds S.spill.out (S.writer.head_len + S.lengths.1 + (S.spill.postings_written
        + whole S.writer.postings.length
        + (S.writer.postings.drop (whole S.writer.postings.length)).length)) df
      rw [length_drop, ← hlen, hsame]
      exact h.out_records
    · show S.spill.out.length ≤ S.writer.head_len + S.lengths.1 + (S.spill.postings_written
        + whole S.writer.postings.length
        + (S.writer.postings.drop (whole S.writer.postings.length)).length) + df.length
      rw [length_drop, ← hlen, hsame]
      exact h.out_length
    · have hheld := hq.keeps _ _ h.scratch (.inl (by rw [h.counts.postings, zero_add]))
      refine hheld.append ?_
      rw [zero_add, ← h.counts.postings]
      exact hq.holds
    · unfold full Writer.put_back
      simp only [append_assoc, hmoved, take_append_drop]
  · rw [if_neg hfull]
    exact ⟨db, dp, df, h, rfl⟩

theorem spill_records_spec (h : S.Stands C w) (s : σ) :
    Guarded.ends (Refused pace) (S.spill_records C pace s) fun q => q.1.Stands C w := by
  obtain ⟨db, dp, df, h, rfl⟩ := h
  unfold spill_records
  cases hs : S.writer.singles with
  | none => exact ⟨db, dp, df, h, rfl⟩
  | some t =>
    by_cases hfull : t.sealed = true ∧ SPILL ≤ t.encoder.bytes.length
    · simp only [if_pos hfull, ends_bind]
      refine ends_mono (write_paced_spec _ _ _ s) fun q hq => ?_
      set moved := t.encoder.bytes.take (whole t.encoder.bytes.length) with hmoved
      have hlen : moved.length = whole t.encoder.bytes.length := length_take_whole _
      refine ⟨db, dp, df ++ moved, ⟨⟨h.counts.blocks, h.counts.postings, ?_⟩, h.blocks_sums,
        h.postings_sums, ?_, h.blocks_whole, h.postings_whole, ?_, ?_, fun _ => ⟨_, rfl, hfull.1⟩,
        ?_, ?_, ?_, h.scratch⟩, ?_⟩
      · rw [length_append, ← h.counts.records, hlen]
      · rw [chunk_sums_append C h.records_whole, ← h.sums]
      · rw [length_append]
        exact Nat.dvd_add h.records_whole (whole_dvd _)
      · have hcodec := h.codec
        rw [hs] at hcodec
        exact hcodec
      · refine hq.keeps _ _ h.out_blocks (.inl ?_)
        show S.writer.head_len + db.length ≤ S.writer.head_len + (S.spill.blocks_written
          + S.writer.blocks.length) + S.lengths.2 + S.spill.drained
        rw [h.counts.blocks]
        omega
      · have hheld := hq.keeps _ _ h.out_records (.inl (by rw [h.counts.records]))
        refine hheld.append ?_
        rw [← h.counts.records]
        exact hq.holds
      · show q.1.length ≤ S.writer.head_len + S.lengths.1 + S.lengths.2 + (df ++ moved).length
        have := hq.length
        have := h.out_length
        have := h.counts.records
        rw [length_append]
        omega
      · unfold full Writer.put_back
        simp only [hs, Option.map_some, Singles.put_back, Encoder.put_back, append_assoc,
          hmoved, take_append_drop]
    · simp only [if_neg hfull]
      exact ⟨db, dp, df, h, rfl⟩

/-- **A spill changes nothing that a writer stands for.** -/
theorem spill_out_spec (h : S.Stands C w) (s : σ) :
    Guarded.ends (Refused pace) (S.spill_out C pace s) fun q => q.1.Stands C w := by
  unfold spill_out
  simp only [ends_bind]
  refine ends_mono (spill_records_spec C h s) fun q hq => ?_
  refine ends_mono (spill_blocks_spec C hq q.2) fun r hr => ?_
  exact spill_postings_spec C hr r.2

end

end Spilling

end Ferret
