import Ferret.Segment.RoundTrip
import Ferret.Segment.SpillRefines

/-!
# A spilled file is the file

Finishing writes the rest of the blocks, copies the postings out of the scratch
file, and appends the small sections, each where the one before it ended. So
the file is filled from the end of the head on, and its bytes are those of the
sections in order; the head, written last, says what an in-memory writer's head
says, since the lengths are those of the whole sections and the sums those of
their whole chunks and tails.
-/

namespace Ferret

open Sparse List Guarded

/-! ## Filling a file from an offset on -/

/-- A file has a string at an offset, and nothing after it. -/
structure Filled (file : Bytes) (base : ℕ) (bytes : Bytes) : Prop where
  holds : Holds file base bytes
  length : file.length ≤ base + bytes.length

theorem Filled.write {file file' : Bytes} {base : ℕ} {a b : Bytes} (h : Filled file base a)
    (hw : Transferred file (base + a.length) b file') : Filled file' base (a ++ b) where
  holds := (hw.keeps _ _ h.holds (.inl le_rfl)).append hw.holds
  length := by
    have := h.length
    have := hw.length
    rw [length_append]
    omega

/-- The head before everything else. -/
theorem Filled.write_head {file head bytes : Bytes} (h : Filled file head.length bytes) :
    Sparse.write 0 file 0 head = head ++ bytes := by
  have hhead : Holds (Sparse.write 0 file 0 head) 0 head := holds_write
  have hrest : Holds (Sparse.write 0 file 0 head) (0 + head.length) bytes := by
    rw [zero_add]
    exact h.holds.write (.inr (zero_add _).le)
  refine (hhead.append hrest).eq ?_
  have := h.length
  rw [length_write, length_append]
  omega

/-- The head over the sections it is the head of is the file. -/
theorem Writer.write_head_eq_file {C : Checksum} {w : Writer} {lengths : Section → ℕ}
    {out sums : Bytes} {digests : Section → Bytes}
    (hlengths : lengths = fun x => (w.section_bytes C x).length)
    (hsums : sums = w.section_bytes C .sums)
    (hdigests : ∀ x ∈ [Section.index, .fingerprintIndex, .sums],
      digests x = C.checksum (w.section_bytes C x))
    (h : Filled out w.head_len (w.sections.flatMap (w.section_bytes C))) :
    Sparse.write 0 out 0 (w.head C lengths (chunk_digests C lengths sums digests)) = w.file C := by
  have hsame : chunk_digests C lengths sums digests
      = chunk_digests C lengths sums fun x => C.checksum (w.section_bytes C x) := by
    funext x
    cases x with
    | blocks | postings | fingerprints => rfl
    | index | fingerprintIndex | sums => exact hdigests _ (by simp)
  have hlen : (w.head C lengths (chunk_digests C lengths sums fun x =>
      C.checksum (w.section_bytes C x))).length = w.head_len :=
    length_head fun x => length_chunk_digests lengths sums _ (fun _ => C.length_checksum _) x
  rw [hsame, Filled.write_head (hlen.symm ▸ h), hlengths, hsums]
  rfl

namespace Spilling

section

variable {σ ε : Type} {pace : ℕ → σ → Except ε σ}

/-- The sections appended, and their lengths noted. -/
theorem write_sections_spec (have_ : List Section) (parts : List (Section × Bytes)) {out : Bytes}
    {base at_ : ℕ} {bytes : Bytes} (lengths : Section → ℕ) (s : σ) (h : Filled out base bytes)
    (hat : at_ = base + bytes.length) :
    Guarded.ends (Refused pace) (write_sections pace have_ parts out at_ lengths s) fun q =>
      Filled q.1 base (bytes ++ (parts.filter (·.1 ∈ have_)).flatMap Prod.snd)
        ∧ q.2.1 = (parts.filter (·.1 ∈ have_)).foldl
          (fun l p => Function.update l p.1 p.2.length) lengths := by
  induction parts generalizing out at_ bytes lengths s with
  | nil =>
    refine ⟨?_, rfl⟩
    rw [filter_nil, flatMap_nil, append_nil]
    exact h
  | cons part rest ih =>
    obtain ⟨section_, b⟩ := part
    rw [write_sections]
    by_cases hin : section_ ∈ have_
    · have hfilter : ((section_, b) :: rest).filter (·.1 ∈ have_)
          = (section_, b) :: rest.filter (·.1 ∈ have_) :=
        filter_cons_of_pos (decide_eq_true hin)
      rw [if_pos hin, ends_bind, hfilter, flatMap_cons, foldl_cons, ← append_assoc]
      refine ends_mono (write_paced_spec out b at_ s) fun q hq => ?_
      refine ih _ q.2 (h.write (hat ▸ hq)) ?_
      rw [hat, length_append, add_assoc]
    · have hfilter : ((section_, b) :: rest).filter (·.1 ∈ have_) = rest.filter (·.1 ∈ have_) :=
        filter_cons_of_neg (by simpa using hin)
      rw [if_neg hin, hfilter]
      exact ih lengths s h hat

end

/-! ## What finishing writes -/

section

variable {C : Checksum} {S : Spilling} {db dp df : Bytes}

theorem Spilt.df_nil (h : S.Spilt C db dp df) (hs : S.writer.singles = none) : df = [] := by
  by_contra hdf
  obtain ⟨t, ht, -⟩ := h.sealed hdf
  cases hs.symm.trans ht

theorem Spilt.sections_none (h : S.Spilt C db dp df) (hs : S.writer.singles = none) :
    S.writer.sections = SECTIONS := by
  have hcodec : S.writer.codec = .dictionary := by
    cases hc : S.writer.codec with
    | dictionary => rfl
    | fingerprint =>
      have := h.codec.mpr hc
      rw [hs] at this
      cases this
  rw [Writer.sections, hcodec]
  rfl

theorem Spilt.sections_some (h : S.Spilt C db dp df) {t : Singles} (hs : S.writer.singles = some t) :
    S.writer.sections = SECTIONS_H := by
  have hcodec : S.writer.codec = .fingerprint := h.codec.mp (by rw [hs]; rfl)
  rw [Writer.sections, hcodec]
  rfl

/-- The head and the sizes do not tell what has left. -/
theorem head_full (S : Spilling) (db dp df : Bytes) :
    (S.full db dp df).head C = S.writer.head C
      ∧ (S.full db dp df).sizes_of = S.writer.sizes_of := by
  have hrecords : (S.full db dp df).records = S.writer.records := by
    show ((S.writer.singles.map (Singles.put_back df)).map fun t => t.encoder.records.length).getD 0
      = _
    rw [Option.map_map]
    rfl
  constructor
  · funext lengths digests
    unfold Writer.head Writer.fields
    rw [hrecords]
    rfl
  · funext lengths
    unfold Writer.sizes_of
    rw [hrecords]
    rfl

/-- The sums of the whole sections, without records. -/
theorem Spilt.sums_none (h : S.Spilt C db dp df) (hs : S.writer.singles = none) :
    (S.full db dp df).section_bytes C .sums
      = S.spill.blocks_sums ++ chunk_sums C S.writer.blocks
        ++ (S.spill.postings_sums ++ chunk_sums C S.writer.postings) := by
  have hsingles : (S.full db dp df).singles = none := by
    rw [full, Writer.put_back, hs]
    rfl
  rw [h.blocks_sums, ← chunk_sums_append C h.blocks_whole, h.postings_sums,
    ← chunk_sums_append C h.postings_whole]
  unfold Writer.section_bytes
  rw [hsingles]
  exact congrArg (chunk_sums C (S.full db dp df).blocks ++ ·) (append_nil _)

/-- The sums of the whole sections, with records. -/
theorem Spilt.sums_some (h : S.Spilt C db dp df) {t : Singles} (hs : S.writer.singles = some t) :
    (S.full db dp df).section_bytes C .sums
      = S.spill.blocks_sums ++ chunk_sums C S.writer.blocks
        ++ (S.spill.postings_sums ++ chunk_sums C S.writer.postings)
        ++ (S.spill.sums ++ chunk_sums C t.encoder.bytes) := by
  have hsingles : (S.full db dp df).singles = some (t.put_back df) := by
    rw [full, Writer.put_back, hs]
    rfl
  rw [h.blocks_sums, ← chunk_sums_append C h.blocks_whole, h.postings_sums,
    ← chunk_sums_append C h.postings_whole, h.sums, ← chunk_sums_append C h.records_whole,
    append_assoc]
  unfold Writer.section_bytes
  rw [hsingles]
  rfl

/-- The blocks, the postings out of the scratch file and the rest of them, and
what records left before. -/
theorem Spilt.filled (h : S.Spilt C db dp df) {f₁ f₂ f₃ : Bytes}
    (h₁ : Transferred S.spill.out (S.writer.head_len + db.length) S.writer.blocks f₁)
    (h₂ : Transferred f₁ (S.writer.head_len + S.lengths.1) dp f₂)
    (h₃ : Transferred f₂ (S.writer.head_len + S.lengths.1 + dp.length) S.writer.postings f₃) :
    Filled f₃ S.writer.head_len ((S.full db dp df).blocks ++ ((S.full db dp df).postings ++ df)) := by
  have hb : S.lengths.1 = db.length + S.writer.blocks.length := by rw [lengths, h.counts.blocks]
  have hp : S.lengths.2 = dp.length + S.writer.postings.length := by
    rw [lengths, h.counts.postings]
  have hblocks : Holds f₁ S.writer.head_len (S.full db dp df).blocks :=
    (h₁.keeps _ _ h.out_blocks (.inl le_rfl)).append h₁.holds
  have hlen : (S.full db dp df).blocks.length = S.lengths.1 := by
    rw [hb, ← length_append]
    rfl
  have hpostings : Holds f₃ (S.writer.head_len + S.lengths.1) (S.full db dp df).postings :=
    (h₃.keeps _ _ h₂.holds (.inl le_rfl)).append h₃.holds
  have hlen' : (S.full db dp df).postings.length = S.lengths.2 := by
    rw [hp, ← length_append]
    rfl
  have hrecords : Holds f₃ (S.writer.head_len + S.lengths.1 + S.lengths.2) df :=
    h₃.keeps _ _ (h₂.keeps _ _ (h₁.keeps _ _ h.out_records (.inr (by omega))) (.inr (by omega)))
      (.inr (by omega))
  constructor
  · refine (h₃.keeps _ _ (h₂.keeps _ _ hblocks (.inl (by rw [hlen]))) (.inl (by omega))).append ?_
    rw [hlen]
    refine hpostings.append ?_
    rw [hlen']
    exact hrecords
  · have := h.out_length
    have := h₁.length
    have := h₂.length
    have := h₃.length
    rw [length_append, length_append, hlen, hlen']
    omega

end

/-- Why finishing fails: the host refuses, or an in-memory writer fails too. -/
def Fails {σ ε : Type} (C : Checksum) (pace : ℕ → σ → Except ε σ) (w : Writer) : Halt ε → Prop
  | .pace e => ∃ n s, pace n s = .error e
  | .recordLength => w.finish C = .error .recordLength

section

variable {σ ε : Type} {C : Checksum} {pace : ℕ → σ → Except ε σ} {S : Spilling} {w : Writer}

theorem refused_fails (e : Halt ε) (h : Refused pace e) : Fails C pace w e := by
  cases e with
  | pace e => exact h
  | recordLength => exact absurd h id

/-- **Finishing a spilling writer gives the file and the sizes of the writer it
stands for.** -/
theorem finish_spec (h : S.Stands C w) (s : σ) :
    Guarded.ends (Fails C pace w) (S.finish_spilled C pace s) fun file =>
      w.finish C = .ok file := by
  obtain ⟨db, dp, df, h, rfl⟩ := h
  have hsealed : S.seal_records.Stands C (S.full db dp df).seal_records :=
    ⟨db, dp, df, h.continues (seal_records_continues S), (seal_records_full h.counts).symm⟩
  have hlong : (S.seal_records.writer.singles.any fun t =>
      decide (2 ^ 32 ≤ S.seal_records.spill.drained + t.encoder.len))
      = (S.full db dp df).seal_records.singles.any fun t => decide (2 ^ 32 ≤ t.encoder.len) := by
    rw [seal_records_full h.counts]
    show _ = (S.seal_records.writer.singles.map (Singles.put_back df)).any _
    rw [Option.any_map]
    refine congrArg (fun f => Option.any f _) (funext fun t => ?_)
    show _ = decide (2 ^ 32 ≤ (df ++ t.encoder.bytes).length)
    rw [length_append, ← h.counts.records]
    rfl
  unfold finish_spilled
  simp only [ends_bind, ends_ensure, hlong]
  refine ⟨fun hfit => ?_, fun hbad => if_pos (not_not.mp hbad)⟩
  have hfile : (S.full db dp df).finish C = .ok ((S.full db dp df).seal_records.file C,
      (S.full db dp df).seal_records.sizes_of fun x =>
        ((S.full db dp df).seal_records.section_bytes C x).length) := if_neg hfit
  rw [hfile]
  generalize S.seal_records = T at hsealed ⊢
  generalize (S.full db dp df).seal_records = W at hsealed ⊢
  refine ends_imp refused_fails (spill_out_spec C hsealed s) fun q hq => ?_
  obtain ⟨T, s⟩ := q
  obtain ⟨db, dp, df, h, rfl⟩ := hq
  refine ends_imp refused_fails (write_paced_spec _ _ _ s) fun q₁ hq₁ => ?_
  refine ends_imp refused_fails (h.counts.postings ▸ copy_from_spec h.scratch _ _ _ q₁.2)
    fun q₂ hq₂ => ?_
  refine ends_imp refused_fails (write_paced_spec _ _ _ q₂.2) fun q₃ hq₃ => ?_
  have hfilled := h.filled (h.counts.blocks ▸ hq₁) hq₂ (h.counts.postings ▸ hq₃)
  obtain ⟨hhead, hsizes⟩ := head_full (C := C) T db dp df
  have hwhole : ∀ {out sums digests lengths},
      lengths = (fun x => ((T.full db dp df).section_bytes C x).length) →
      sums = (T.full db dp df).section_bytes C .sums →
      (∀ x ∈ [Section.index, .fingerprintIndex, .sums],
        digests x = C.checksum ((T.full db dp df).section_bytes C x)) →
      Filled out T.writer.head_len
        (T.writer.sections.flatMap ((T.full db dp df).section_bytes C)) →
      (Except.ok ((T.full db dp df).file C, (T.full db dp df).sizes_of fun x =>
        ((T.full db dp df).section_bytes C x).length) : Except WriteError (Bytes × Sizes))
        = .ok (Sparse.write 0 out 0 (T.writer.head C lengths
          (Writer.chunk_digests C lengths sums digests)), T.writer.sizes_of lengths) := by
    intro out sums digests lengths hl hs hd hf
    rw [← hhead, ← hsizes, Writer.write_head_eq_file hl hs hd hf, hl]
  dsimp only at h hq₁ hq₂ hq₃ hfilled
  have hL : T.lengths.1 = (T.full db dp df).blocks.length
      ∧ T.lengths.2 = (T.full db dp df).postings.length := by
    rw [h.counts.lengths]
    exact ⟨rfl, rfl⟩
  have hpost : T.spill.postings_written + T.writer.postings.length = T.lengths.2 := rfl
  have hsingles : (T.full db dp df).singles = T.writer.singles.map (Singles.put_back df) := rfl
  cases hs : T.writer.singles with
  | none =>
    have hsections := h.sections_none hs
    have hsums := h.sums_none hs
    rw [hs] at hsingles
    have hfp : (T.full db dp df).section_bytes C .fingerprints = [] := by
      rw [Writer.section_bytes, hsingles]
      rfl
    have hfi : (T.full db dp df).section_bytes C .fingerprintIndex = [] := by
      rw [Writer.section_bytes, hsingles]
      rfl
    rw [h.df_nil hs, append_nil] at hfilled
    simp only [ends_ok, ends_bind]
    refine ends_imp refused_fails (Spilling.write_sections_spec _ _ _ _ hfilled ?_)
      fun q₄ hq₄ => hwhole ?_ hsums.symm ?_ ?_
    · show _ = _ + ((T.full db dp df).blocks ++ (T.full db dp df).postings).length
      rw [length_append]
      omega
    · rw [hq₄.2, hsections]
      funext x
      cases x with
      | blocks => exact hL.1
      | postings => exact hL.2
      | index => rfl
      | sums => exact congrArg List.length hsums.symm
      | fingerprints => exact congrArg List.length hfp.symm
      | fingerprintIndex => exact congrArg List.length hfi.symm
    · intro x hx
      simp only [mem_cons, not_mem_nil, or_false] at hx
      rcases hx with rfl | rfl | rfl
      · rfl
      · exact congrArg C.checksum hfi.symm
      · exact congrArg C.checksum hsums.symm
    · have hfill := hq₄.1
      rw [hsections, ← hsums] at hfill
      rw [hsections]
      show Filled q₄.1 T.writer.head_len ((T.full db dp df).blocks ++ ((T.full db dp df).postings
        ++ ((T.full db dp df).index ++ ((T.full db dp df).section_bytes C .sums ++ []))))
      rw [← append_assoc]
      exact hfill
  | some t =>
    have hsections := h.sections_some hs
    have hsums := h.sums_some hs
    rw [hs] at hsingles
    have hfp : (T.full db dp df).section_bytes C .fingerprints = df ++ t.encoder.bytes := by
      rw [Writer.section_bytes, hsingles]
      rfl
    have hfi : (T.full db dp df).section_bytes C .fingerprintIndex
        = put t.encoder.records.length ++ t.encoder.index := by
      rw [Writer.section_bytes, hsingles]
      rfl
    simp only [ends_ok, ends_bind]
    refine ends_imp refused_fails (write_paced_spec _ _ _ q₃.2) fun q hq => ?_
    have hat : T.writer.head_len + T.lengths.1 + T.spill.postings_written
        + T.writer.postings.length + T.spill.drained = T.writer.head_len
          + ((T.full db dp df).blocks ++ ((T.full db dp df).postings ++ df)).length := by
      have := h.counts.records
      rw [length_append, length_append]
      omega
    have hrecords := hfilled.write (hat ▸ hq)
    refine ends_imp refused_fails (Spilling.write_sections_spec _ _ _ _ hrecords ?_)
      fun q₄ hq₄ => hwhole ?_ hsums.symm ?_ ?_
    · simp only [length_append, Encoder.len]
      have := h.counts.records
      omega
    · rw [hq₄.2, hsections]
      funext x
      cases x with
      | blocks => exact hL.1
      | postings => exact hL.2
      | index => rfl
      | sums => exact congrArg List.length hsums.symm
      | fingerprints =>
        rw [hfp, length_append, ← h.counts.records]
        rfl
      | fingerprintIndex => exact congrArg List.length hfi.symm
    · intro x hx
      simp only [mem_cons, not_mem_nil, or_false] at hx
      rcases hx with rfl | rfl | rfl
      · rfl
      · exact congrArg C.checksum hfi.symm
      · exact congrArg C.checksum hsums.symm
    · have hfill := hq₄.1
      rw [hsections, ← hsums] at hfill
      rw [hsections]
      have hsame : SECTIONS_H.flatMap ((T.full db dp df).section_bytes C)
          = (T.full db dp df).blocks ++ ((T.full db dp df).postings ++ df) ++ t.encoder.bytes
            ++ ((T.full db dp df).index ++ ((put t.encoder.records.length ++ t.encoder.index)
              ++ ((T.full db dp df).section_bytes C .sums ++ []))) := by
        show (T.full db dp df).blocks ++ ((T.full db dp df).postings
          ++ ((T.full db dp df).section_bytes C .fingerprints ++ ((T.full db dp df).index
            ++ ((T.full db dp df).section_bytes C .fingerprintIndex
              ++ ((T.full db dp df).section_bytes C .sums ++ []))))) = _
        rw [hfp, hfi]
        simp only [append_assoc]
      rw [hsame]
      exact hfill

/-! ## Sequences of calls -/

/-- **Every call returns what an in-memory writer's returns**, spills between
them or not. -/
theorem calls_spec (P : Intpack) (fingerprint : Bytes → ℕ) (calls : List WriterCall) (h : S.Stands C w)
    (s : σ) :
    Guarded.ends (Refused pace) (S.calls P C fingerprint pace calls s) fun q =>
      (w.calls P fingerprint calls).1 = q.1 ∧ q.2.1.Stands C (w.calls P fingerprint calls).2 := by
  induction calls generalizing S w s with
  | nil => exact ⟨rfl, h⟩
  | cons call _ ih =>
    cases call with
    | push term docs =>
      obtain ⟨db, dp, df, hspilt, rfl⟩ := h
      have hpush := push_full hspilt.counts P fingerprint term docs
      cases hS : S.push P fingerprint term docs with
      | ok q =>
        obtain ⟨S', n⟩ := q
        rw [hS] at hpush
        simp only [Writer.calls, Spilling.calls, hpush, hS, Except.map, ends_bind]
        have hnext : S'.Stands C (S'.full db dp df) :=
          ⟨db, dp, df, hspilt.continues (push_continues hS), rfl⟩
        refine ends_mono (ih hnext s) fun q hq => ?_
        exact ⟨congrArg (.ok n :: ·) hq.1, hq.2⟩
      | error e =>
        rw [hS] at hpush
        simp only [Writer.calls, Spilling.calls, hpush, hS, Except.map, ends_bind]
        refine ends_mono (ih ⟨db, dp, df, hspilt, rfl⟩ s) fun q hq => ?_
        exact ⟨congrArg (.error e :: ·) hq.1, hq.2⟩
    | push_record fp doc =>
      obtain ⟨db, dp, df, hspilt, rfl⟩ := h
      have hpush := push_record_full hspilt.counts fp doc
      cases hS : S.push_record fp doc with
      | ok S' =>
        rw [hS] at hpush
        simp only [Writer.calls, Spilling.calls, hpush, hS, Except.map, ends_bind]
        have hnext : S'.Stands C (S'.full db dp df) :=
          ⟨db, dp, df, hspilt.continues (push_record_continues hS), rfl⟩
        refine ends_mono (ih hnext s) fun q hq => ?_
        exact ⟨congrArg (.ok 0 :: ·) hq.1, hq.2⟩
      | error e =>
        rw [hS] at hpush
        simp only [Writer.calls, Spilling.calls, hpush, hS, Except.map, ends_bind]
        refine ends_mono (ih ⟨db, dp, df, hspilt, rfl⟩ s) fun q hq => ?_
        exact ⟨congrArg (.error e :: ·) hq.1, hq.2⟩
    | spill =>
      simp only [Spilling.calls, Writer.calls, ends_bind]
      refine ends_mono (spill_out_spec C h s) fun q hq => ?_
      exact ih hq q.2

end

end Spilling

/-- **Spilling is invisible.** Whatever is pushed, wherever it is spilled and
however it is paced, a spilling writer answers each call and leaves the file
and the sizes that the in-memory writer does, in either codec; it fails only
where its host refuses to go on, or where finishing in memory fails too, and it
never reads what it has not written. -/
theorem spilling_invisible {σ ε : Type} (P : Intpack) (C : Checksum) (fingerprint : Bytes → ℕ)
    (pace : ℕ → σ → Except ε σ) (first last version : ℕ) (codec : Codec) (calls : List WriterCall)
    (s : σ) :
    match Writer.build first last version codec, Spilling.build first last version codec with
    | .ok w, .ok S =>
      match spilled P C fingerprint pace S calls s with
      | .ok (returned, file) => in_memory P C fingerprint w calls = (returned, .ok file)
      | .error (.error (.pace e)) => ∃ n s, pace n s = .error e
      | .error (.error .recordLength) =>
        (in_memory P C fingerprint w calls).2 = .error .recordLength
      | .error .panic => False
    | .error e, .error e' => e = e'
    | _, _ => False := by
  cases hw : Writer.build first last version codec with
  | error e =>
    have hS : Spilling.build first last version codec = .error e := by
      rw [Spilling.build, hw]
      rfl
    rw [hS]
  | ok w =>
    have hS : Spilling.build first last version codec
        = .ok { writer := w, spill := Spill.new } := by
      rw [Spilling.build, hw]
      rfl
    have hspec : Guarded.ends (Spilling.Fails C pace (w.calls P fingerprint calls).2)
        (spilled P C fingerprint pace { writer := w, spill := Spill.new } calls s) fun q =>
          in_memory P C fingerprint w calls = (q.1, .ok q.2) := by
      unfold spilled in_memory
      simp only [ends_bind, ends_ok]
      refine ends_imp Spilling.refused_fails
        (Spilling.calls_spec P fingerprint calls (Spilling.build_stands C hw) s) fun q hq => ?_
      refine ends_mono (Spilling.finish_spec hq.2 q.2.2) fun file hfile => ?_
      rw [hq.1, hfile]
    rw [hS]
    dsimp only
    generalize spilled P C fingerprint pace { writer := w, spill := Spill.new } calls s = out
      at hspec ⊢
    rcases out with ((e | -) | -) | file <;> exact hspec

end Ferret
