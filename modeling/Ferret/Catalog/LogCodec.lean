import Ferret.Catalog.Log
import Ferret.Catalog.RecordCodec

/-!
# Reading a log back

Whatever the bytes, opening a log and loading its families end without a
panic, and an accepted log is tiled by its transactions, each of them by its
framing and its blocks, with every id below its transaction's counters.

What the writer appends is read back: a transaction that passes its checks is
as long as was computed beforehand, and the log with it appended opens as the
old transactions and one more, with the records that were given, by family.
-/

namespace Ferret.Catalog

open Guarded List

section

variable {ε : Type} {a b : ℕ}

@[simp]
theorem wp_add64 {P : ℕ → Prop} :
    wp (add64 a b : Guarded ε ℕ) P ↔ a + b < 2 ^ 64 ∧ P (a + b) := by
  simp [add64]

@[simp]
theorem wp_sub64 {P : ℕ → Prop} : wp (sub64 a b : Guarded ε ℕ) P ↔ b ≤ a ∧ P (a - b) := by
  simp [sub64]

@[simp]
theorem add64_eq_ok {x : ℕ} :
    (add64 a b : Guarded ε ℕ) = .ok x ↔ a + b < 2 ^ 64 ∧ a + b = x := by
  simp [add64]

@[simp]
theorem sub64_eq_ok {x : ℕ} : (sub64 a b : Guarded ε ℕ) = .ok x ↔ b ≤ a ∧ a - b = x := by
  simp [sub64]

end

section

variable {file : File} {n offset : ℕ}

@[simp]
theorem wp_read_exact_at {P : Bytes → Prop} :
    wp (file.read_exact_at n offset) P ↔
      (offset + n ≤ file.bytes.length → P (slice file.bytes offset n)) := by
  simp [File.read_exact_at]

@[simp]
theorem read_exact_at_eq_ok {x : Bytes} :
    file.read_exact_at n offset = .ok x ↔
      offset + n ≤ file.bytes.length ∧ slice file.bytes offset n = x := by
  simp [File.read_exact_at]

end

/-! ## What an accepted log is -/

/-- Blocks end to end, from one offset to another. -/
def Tile : ℕ → List Block → ℕ → Prop
  | start, [], stop => start = stop
  | start, b :: rest, stop => b.offset = start ∧ 0 < b.length ∧ Tile (start + b.length) rest stop

/-- A transaction from one offset to another: its framing, its blocks, and its
footer. -/
structure Envelope.Tiles (t : Envelope) (start stop : ℕ) : Prop where
  footer : 32 ≤ stop
  blocks : Tile (start + 64 + t.blocks.length * 48) t.blocks (stop - 32)
  families : (t.blocks.map Block.family).Nodup
  ne_nil : t.blocks ≠ []

/-- Counters never decrease. -/
def Counters.Le (a b : Counters) : Prop := a.inode ≤ b.inode ∧ a.name ≤ b.name ∧ a.doc ≤ b.doc

/-- **Transactions end to end**, each following the sequence and the counters of
the one before. -/
inductive Chain : ℕ → UInt64 → Counters → List Envelope → ℕ → UInt64 → Counters → Prop
  | nil (start sequence c) : Chain start sequence c [] start sequence c
  | snoc {start sequence c ts mid sequence' c' t stop}
    (h : Chain start sequence c ts mid sequence' c') (tiles : t.Tiles mid stop)
    (next : t.sequence.toNat = sequence'.toNat + 1) (le : c'.Le t.counters) :
    Chain start sequence c (ts ++ [t]) stop t.sequence t.counters

variable {stop : ℕ} {blocks : List Block} {file : Option File} {sequence s : UInt64}
  {c base : Counters} {ts : List Envelope} {m : Manifest} {family : Family} {families : List Family}
  {log : Log}

theorem Tile.snoc {b : Block} (h : Tile start blocks stop)
    (ho : b.offset = stop) (hpos : 0 < b.length) : Tile start (blocks ++ [b]) (stop + b.length) := by
  induction blocks generalizing start with
  | nil =>
    obtain rfl : start = stop := h
    exact ⟨ho, hpos, rfl⟩
  | cons a _ ih => exact ⟨h.1, h.2.1, ih h.2.2⟩

/-! ## Any bytes -/

theorem length_chunks_exact {n : ℕ} {b : Bytes} :
    (chunks_exact n b).length = b.length / n := by
  simp [chunks_exact]

theorem length_of_mem_chunks {n : ℕ} {b d : Bytes} (h : d ∈ chunks_exact n b) : d.length = n := by
  simp only [chunks_exact, mem_map, mem_range] at h
  obtain ⟨i, hi, rfl⟩ := h
  have hle : (i + 1) * n ≤ b.length :=
    (Nat.mul_le_mul_right n hi).trans (Nat.div_mul_le_self b.length n)
  rw [add_mul, one_mul] at hle
  exact length_slice hle

variable {start length : ℕ}

/-- One descriptor. -/
theorem wp_read_block {cursor : ℕ} {d : Bytes} (hd : d.length = 48)
    (hc : cursor + 32 ≤ length) (hsmall : start + length < 2 ^ 63) :
    wp (read_block start length cursor blocks d) fun b =>
      b.family ∉ blocks.map Block.family ∧ b.offset = start + cursor ∧ 0 < b.length ∧
        cursor + b.length + 32 ≤ length ∧ b.records = none := by
  simp only [read_block, wp_bind, wp_byte_at, wp_u64_at, wp_u32_at]
  refine ⟨by omega, by omega, by omega, by omega, by omega, ?_⟩
  split
  · trivial
  · simp only [wp_bind, wp_ensure, wp_range, wp_sub64, wp_add64, wp_pure]
    refine fun hf => ⟨by omega, by omega, fun _ ho hz _ => ⟨by omega, by omega, fun hs => ?_⟩⟩
    exact ⟨by omega, by omega, hf, by omega, by omega, by omega, trivial⟩

theorem wp_read_blocks_from {first : ℕ} (hsmall : start + length < 2 ^ 63) {ds : List Bytes}
    {cursor : ℕ} (hds : ∀ d ∈ ds, d.length = 48)
    (hc : cursor + 32 ≤ length) (hblocks : Tile first blocks (start + cursor))
    (hnodup : (blocks.map Block.family).Nodup) (hnone : ∀ b ∈ blocks, b.records = none) :
    wp (read_blocks_from start length ds cursor blocks) fun p =>
      Tile first p.2 (start + p.1) ∧ (p.2.map Block.family).Nodup ∧
        p.2.length = blocks.length + ds.length ∧ ∀ b ∈ p.2, b.records = none := by
  induction ds generalizing cursor blocks with
  | nil => exact ⟨hblocks, hnodup, rfl, hnone⟩
  | cons d ds ih =>
    rw [read_blocks_from]
    simp only [wp_bind, wp_add64]
    refine wp_mono (wp_read_block (hds d (.head _)) hc hsmall) ?_
    rintro b ⟨hf, ho, hpos, hle, hb⟩
    refine ⟨by omega, wp_mono (ih (fun d' hd' => hds d' (.tail _ hd')) hle ?_ ?_ ?_) ?_⟩
    · rw [← add_assoc]
      exact hblocks.snoc ho hpos
    · rw [map_append]
      exact hnodup.append (nodup_singleton _) (by simpa using hf)
    · intro b' hb'
      rcases mem_append.mp hb' with h | h
      · exact hnone b' h
      · rw [mem_singleton.mp h]
        exact hb
    · rintro p ⟨htile, hnodup, hlen, hnone⟩
      refine ⟨htile, hnodup, ?_, hnone⟩
      simp only [hlen, length_append, length_cons, length_nil]
      omega

/-- The blocks of a transaction tile its body. -/
theorem wp_read_blocks {framing : Bytes} {count : ℕ} (hf : framing.length = 64 + count * 48)
    (hc : framing.length + 32 ≤ length) (hsmall : start + length < 2 ^ 63) :
    wp (read_blocks framing start length) fun blocks =>
      blocks.length = count ∧ Tile (start + 64 + count * 48) blocks (start + length - 32) ∧
        (blocks.map Block.family).Nodup ∧ ∀ b ∈ blocks, b.records = none := by
  simp only [read_blocks, wp_bind, wp_range, wp_ensure, wp_sub64, wp_pure]
  have hds : (slice framing 64 (framing.length - 64)).length = count * 48 := by
    rw [length_slice (by omega)]
    omega
  have hfirst : Tile (start + 64 + count * 48) [] (start + framing.length) := by
    rw [hf, ← add_assoc]
    rfl
  refine ⟨by omega, wp_mono (wp_read_blocks_from hsmall (fun d hd => length_of_mem_chunks hd) hc
    hfirst nodup_nil (by simp)) ?_⟩
  rintro ⟨cursor, blocks⟩ ⟨htile, hnodup, hlen, hnone⟩
  simp only [length_chunks_exact, hds, length_nil, zero_add,
    Nat.mul_div_cancel _ (show 0 < 48 by omega)] at hlen htile hnodup hnone ⊢
  refine ⟨by omega, fun hcursor => ⟨hlen, ?_, hnodup, hnone⟩⟩
  rw [show start + length - 32 = start + cursor by omega]
  exact htile

variable {C : Checksum}

/-- **One transaction, whatever the bytes.** -/
theorem wp_read_envelope {file : File} {room : ℕ} {counters : Counters}
    (hroom : start + room ≤ file.bytes.length) :
    wp (read_envelope C file start room sequence counters) fun p =>
      p.1.Tiles start (start + p.2) ∧ p.1.sequence.toNat = sequence.toNat + 1 ∧
        counters.Le p.1.counters ∧ 0 < p.2 ∧ p.2 ≤ room ∧ ∀ b ∈ p.1.blocks, b.records = none := by
  have hsmall := file.small
  simp only [read_envelope, wp_bind, wp_ensure, wp_read_exact_at, wp_u32_at, wp_u64_at, wp_range,
    wp_add64, wp_sub64, wp_pure]
  intro h96 hread
  have hhead : (slice file.bytes start 64).length = 64 := length_slice (by omega)
  generalize slice file.bytes start 64 = head at *
  refine ⟨by omega, by omega, by omega, fun _ => ⟨by omega, by omega, by omega, ?_⟩⟩
  generalize (u32 (slice head 12 4)).toNat = count
  generalize (u64 (slice head 16 8)).toNat = length
  rintro ⟨_, _, _, _, hle⟩
  refine ⟨by omega, fun hnext => ⟨by omega, by omega, by omega, fun hcounters => ⟨by omega, ?_⟩⟩⟩
  intro hread'
  have hframing : (head ++ slice file.bytes (start + 64) (count * 48)).length = 64 + count * 48 := by
    rw [length_append, hhead, length_slice hread']
  generalize head ++ slice file.bytes (start + 64) (count * 48) = framing at *
  refine ⟨by omega, by omega, fun hfooter => ?_⟩
  have hlen : (slice file.bytes (start + length - 32) 32).length = 32 := length_slice hfooter
  refine ⟨by omega, by omega, by omega, fun _ => ?_⟩
  refine wp_mono (wp_read_blocks hframing (by omega) (by omega)) ?_
  rintro _ ⟨hblocks, htile, hnodup, hnone⟩
  refine ⟨⟨by omega, ?_, hnodup, ?_⟩, hnext.1.symm, hcounters.2.2, by omega, hle, hnone⟩
  · rw [hblocks]
    exact htile
  · rintro rfl
    simp only [length_nil] at hblocks
    omega

/-- **The loop over a log's transactions, whatever the bytes.** -/
theorem wp_open_from {file : File} {log_end first : ℕ}
    (hend : log_end ≤ file.bytes.length) {fuel : ℕ} {counters : Counters}
    (hfuel : log_end - start < fuel) (hstart : start ≤ log_end)
    (hchain : Chain first s c ts start sequence counters)
    (hnone : ∀ t ∈ ts, ∀ b ∈ t.blocks, b.records = none) :
    wp (open_from C file log_end fuel start sequence counters ts) fun p =>
      Chain first s c p.2.2 log_end p.1 p.2.1 ∧ ∀ t ∈ p.2.2, ∀ b ∈ t.blocks, b.records = none := by
  have hsmall := file.small
  induction fuel generalizing start sequence counters ts with
  | zero => omega
  | succ fuel ih =>
    rw [open_from]
    split
    · simp only [wp_bind, wp_add64]
      refine wp_mono (wp_read_envelope (by omega)) ?_
      rintro ⟨t, _⟩ ⟨htiles, hnext, hle, hpos, hroom, hblocks⟩
      simp only at htiles hnext hle hpos hroom hblocks ⊢
      refine ⟨by omega, ih (by omega) (by omega) (hchain.snoc htiles hnext hle) fun t' ht' => ?_⟩
      rcases mem_append.mp ht' with h | h
      · exact hnone t' h
      · rw [mem_singleton.mp h]
        exact hblocks
    · obtain rfl : start = log_end := by omega
      exact ⟨hchain, hnone⟩

/-- What an opened log is: its transactions tile the bytes after the header, from
the checkpoint's sequence and counters to the manifest's. -/
structure Log.Opened (file : Option File) (m : Manifest) (base : Counters) (log : Log) : Prop where
  file_eq : log.file = file
  checkpoint : log.checkpoint = m.generation.checkpoint
  empty : file = none → log.transactions = [] ∧ m.log_end = 0
  chain : ∀ f, file = some f → m.log_end.toNat ≤ f.bytes.length ∧
    Chain HEADER m.checkpoint_sequence base log.transactions m.log_end.toNat
      m.generation.sequence m.counters

theorem wp_open :
    wp (Log.open C file m base) fun log =>
      log.Opened file m base ∧ ∀ t ∈ log.transactions, ∀ b ∈ t.blocks, b.records = none := by
  cases file with
  | none =>
    simp only [Log.open, wp_bind, wp_ensure, wp_pure]
    exact fun h => ⟨⟨rfl, rfl, fun _ => ⟨rfl, h.1⟩, fun f hf => (by cases hf)⟩, by simp⟩
  | some file =>
    simp only [Log.open, wp_bind, wp_ensure, wp_read_exact_at, wp_u32_at, wp_pure]
    rintro ⟨hheader, hend⟩ hread
    have hlen : (slice file.bytes 0 64).length = 64 := length_slice hread
    refine ⟨by omega, fun _ => ?_⟩
    refine wp_mono (wp_open_from hend (by omega) hheader (Chain.nil _ _ _) (by simp)) ?_
    rintro ⟨_, _, _⟩ ⟨hchain, hnone⟩ ⟨rfl, rfl⟩
    refine ⟨⟨rfl, rfl, fun h => (by cases h), fun f hf => ?_⟩, hnone⟩
    cases hf
    exact ⟨hend, hchain⟩

/-! ## Loading -/

/-- A block without its records. -/
def Block.bare (b : Block) : Block := { b with records := none }

def Envelope.bare (t : Envelope) : Envelope := { t with blocks := t.blocks.map Block.bare }

theorem Tile.bare {blocks' : List Block} (h : Tile start blocks stop)
    (e : blocks'.map Block.bare = blocks.map Block.bare) : Tile start blocks' stop := by
  induction blocks generalizing start blocks' with
  | nil =>
    obtain rfl : blocks' = [] := by simpa using e
    exact h
  | cons b rest ih =>
    cases blocks' with
    | nil => simp at e
    | cons b' rest' =>
      obtain ⟨eb, erest⟩ : b'.bare = b.bare ∧ rest'.map Block.bare = rest.map Block.bare := by
        simpa using e
      obtain ⟨ho, hl⟩ : b'.offset = b.offset ∧ b'.length = b.length := by
        simp only [Block.bare, Block.mk.injEq] at eb
        exact ⟨eb.2.2.1, eb.2.2.2.1⟩
      exact ⟨ho.trans h.1, by rw [hl]; exact h.2.1, by rw [hl]; exact ih h.2.2 erest⟩

theorem Envelope.Tiles.bare {t t' : Envelope} (h : t.Tiles start stop)
    (e : t'.bare = t.bare) : t'.Tiles start stop := by
  have eb : t'.blocks.map Block.bare = t.blocks.map Block.bare := congrArg Envelope.blocks e
  have hlen : t'.blocks.length = t.blocks.length := by
    rw [← length_map Block.bare, eb, length_map]
  have hfamilies : t'.blocks.map Block.family = t.blocks.map Block.family := by
    have := congrArg (List.map Block.family) eb
    simpa [map_map, Function.comp_def, Block.bare] using this
  refine ⟨h.footer, ?_, hfamilies ▸ h.families, ?_⟩
  · rw [hlen]
    exact h.blocks.bare eb
  · intro hnil
    exact h.ne_nil (eq_nil_of_length_eq_zero (by rw [← hlen, hnil]; rfl))

/-- Loading does not move anything. -/
theorem Chain.bare {s' : UInt64} {c' : Counters} {ts' : List Envelope}
    (h : Chain start s c ts stop s' c') (e : ts'.map Envelope.bare = ts.map Envelope.bare) :
    Chain start s c ts' stop s' c' := by
  induction h generalizing ts' with
  | nil =>
    obtain rfl : ts' = [] := by simpa using e
    exact .nil _ _ _
  | @snoc _ _ _ _ t _ _ tiles next le ih =>
    rw [map_append, map_eq_append_iff] at e
    obtain ⟨l, r, rfl, el, er⟩ := e
    obtain ⟨t', rfl, et⟩ := map_eq_singleton_iff.mp er
    obtain ⟨hs, hc⟩ : t'.sequence = t.sequence ∧ t'.counters = t.counters := by
      simp only [Envelope.bare, Envelope.mk.injEq] at et
      exact ⟨et.1, et.2.1⟩
    rw [← hs, ← hc]
    exact (ih el).snoc (tiles.bare et) (by rw [hs]; exact next) (by rw [hc]; exact le)

theorem Tile.le (h : Tile start blocks stop) :
    start ≤ stop ∧ ∀ b ∈ blocks, b.offset + b.length ≤ stop := by
  induction blocks generalizing start with
  | nil =>
    obtain rfl : start = stop := h
    exact ⟨le_rfl, by simp⟩
  | cons b _ ih =>
    obtain ⟨_, _, hrest⟩ := h
    obtain ⟨_, hin⟩ := ih hrest
    refine ⟨by omega, fun b' hb' => ?_⟩
    rcases mem_cons.mp hb' with rfl | h
    · omega
    · exact hin b' h

/-- Every block of a log lies before its end. -/
theorem Chain.le {s' : UInt64} {c' : Counters} (h : Chain start s c ts stop s' c') :
    ∀ t ∈ ts, ∀ b ∈ t.blocks, b.offset + b.length ≤ stop := by
  induction h with
  | nil => simp
  | snoc _ tiles _ _ ih =>
    have hfooter := tiles.footer
    obtain ⟨_, hin⟩ := tiles.blocks.le
    intro t ht b hb
    rcases mem_append.mp ht with h | h
    · have := ih t h b hb
      omega
    · rw [mem_singleton.mp h] at hb
      have := hin b hb
      omega

/-- Where records are loaded, they are as many as the block says, of its family,
and their ids are below the transaction's counters. -/
def Block.Sound (c : Counters) (sequence : UInt64) (b : Block) : Prop :=
  ∀ rs ∈ b.records, rs.length = b.count.toNat ∧ ∀ r ∈ rs, r.family = b.family ∧ r.Within c sequence

theorem wp_block_load {checkpoint : UInt64}
    {b : Block} (hlen : b.length < 2 ^ 63) (hb : b.Sound c sequence) :
    wp (b.load C file checkpoint sequence c family) fun b' =>
      b'.bare = b.bare ∧ b'.Sound c sequence ∧ (b.records.isSome → b'.records.isSome) ∧
        (b.family = family → b'.records.isSome) := by
  unfold Block.load
  rw [wp_ite]
  refine ⟨fun h => ⟨rfl, hb, id, fun hf => h.resolve_left (not_not.mpr hf)⟩, fun h => ?_⟩
  simp only [wp_bind, wp_claim]
  refine ⟨hlen, ?_⟩
  cases file with
  | none => trivial
  | some file =>
    simp only [wp_bind, wp_map_err, wp_read_exact_at, wp_ensure, wp_pure]
    intro _ _
    refine wp_mono wp_decode fun rs hrs => ⟨rfl, fun rs' hrs' => ?_, fun _ => rfl, fun _ => rfl⟩
    obtain rfl : rs = rs' := by simpa using hrs'
    rw [not_not.mp (not_or.mp h).1]
    exact hrs

/-- Every block of a transaction fits in memory and is soundly loaded, and those of
some families are loaded. -/
def Envelope.Loaded (families : List Family) (t : Envelope) : Prop :=
  ∀ b ∈ t.blocks, b.length < 2 ^ 63 ∧ b.Sound t.counters t.sequence ∧
    (b.family ∈ families → b.records.isSome)

theorem map_eq_of_forall₂ {α β : Type} {g : α → β} {l l' : List α}
    (h : List.Forall₂ (fun a a' => g a' = g a) l l') : l'.map g = l.map g := by
  induction h with
  | nil => rfl
  | cons h _ ih => rw [map_cons, map_cons, h, ih]

/-- What holds of the second of every pair holds of the second list. -/
theorem forall_of_forall₂ {α β : Type} {P : β → Prop} {l : List α} {l' : List β}
    (h : List.Forall₂ (fun _ b => P b) l l') : ∀ b ∈ l', P b := by
  induction h with
  | nil => simp
  | cons h _ ih => exact forall_mem_cons.mpr ⟨h, ih⟩

theorem wp_envelope_load {checkpoint : UInt64} {t : Envelope} (ht : t.Loaded families) :
    wp (t.load C file checkpoint family) fun t' =>
      t'.bare = t.bare ∧ t'.Loaded (family :: families) := by
  have hblock : ∀ b ∈ t.blocks, wp (b.load C file checkpoint t.sequence t.counters family) fun b' =>
      b'.bare = b.bare ∧ b'.length < 2 ^ 63 ∧ b'.Sound t.counters t.sequence ∧
        (b'.family ∈ family :: families → b'.records.isSome) := by
    intro b hb
    obtain ⟨hlen, hsound, hloaded⟩ := ht b hb
    refine wp_mono (wp_block_load hlen hsound) fun b' ⟨e, hsound', hkept, hnew⟩ => ?_
    obtain ⟨hf, hl⟩ : b'.family = b.family ∧ b'.length = b.length := by
      simp only [Block.bare, Block.mk.injEq] at e
      exact ⟨e.1, e.2.2.2.1⟩
    refine ⟨e, hl ▸ hlen, hsound', fun hmem => ?_⟩
    rw [hf] at hmem
    rcases mem_cons.mp hmem with h | h
    · exact hnew h
    · exact hkept (hloaded h)
  simp only [Envelope.load, wp_bind, wp_pure]
  refine wp_mono (wp_mapM hblock) fun blocks h => ⟨?_, ?_⟩
  · rw [Envelope.bare, Envelope.bare, map_eq_of_forall₂ (h.imp fun _ _ h => h.1)]
  · exact forall_of_forall₂ (h.imp fun _ _ h => h.2)

/-- What loading keeps of a log. -/
structure Log.Same (log log' : Log) : Prop where
  file_eq : log'.file = log.file
  checkpoint : log'.checkpoint = log.checkpoint
  bare : log'.transactions.map Envelope.bare = log.transactions.map Envelope.bare

theorem Log.Same.trans {a b c : Log} (h : a.Same b) (h' : b.Same c) : a.Same c where
  file_eq := h'.file_eq.trans h.file_eq
  checkpoint := h'.checkpoint.trans h.checkpoint
  bare := h'.bare.trans h.bare

/-- **Loading one family, whatever the bytes.** -/
theorem wp_load (h : ∀ t ∈ log.transactions, t.Loaded families) :
    wp (log.load C family) fun log' =>
      log.Same log' ∧ ∀ t ∈ log'.transactions, t.Loaded (family :: families) := by
  simp only [Log.load, wp_bind, wp_pure]
  refine wp_mono (wp_mapM fun t ht => wp_envelope_load (h t ht)) fun ts hts => ⟨⟨rfl, rfl, ?_⟩, ?_⟩
  · exact map_eq_of_forall₂ (hts.imp fun _ _ h => h.1)
  · exact forall_of_forall₂ (hts.imp fun _ _ h => h.2)

/-- **Loading some families, one after another, whatever the bytes.** -/
theorem wp_load_each {loaded : List Family} (h : ∀ t ∈ log.transactions, t.Loaded loaded) :
    wp (families.foldlM (fun log family => log.load C family) log) fun log' =>
      log.Same log' ∧ ∀ t ∈ log'.transactions, t.Loaded (families ++ loaded) := by
  induction families generalizing loaded log with
  | nil => exact ⟨⟨rfl, rfl, rfl⟩, h⟩
  | cons family families ih =>
    rw [foldlM_cons, wp_bind]
    refine wp_mono (wp_load h) fun log₁ ⟨hsame, h₁⟩ => wp_mono (ih h₁) fun log₂ ⟨hsame', h₂⟩ => ?_
    refine ⟨hsame.trans hsame', fun t ht b hb => ?_⟩
    obtain ⟨hlen, hsound, hloaded⟩ := h₂ t ht b hb
    refine ⟨hlen, hsound, fun hmem => hloaded ?_⟩
    simp only [mem_append, mem_cons] at hmem ⊢
    tauto

theorem Log.Opened.same {log' : Log}
    (h : log.Opened file m base) (hs : log.Same log') : log'.Opened file m base where
  file_eq := hs.file_eq.trans h.file_eq
  checkpoint := hs.checkpoint.trans h.checkpoint
  empty := fun hf => by
    obtain ⟨hnil, hend⟩ := h.empty hf
    have e := hs.bare
    rw [hnil] at e
    exact ⟨by simpa using e, hend⟩
  chain := fun f hf => ⟨(h.chain f hf).1, (h.chain f hf).2.bare hs.bare⟩

/-- A log just opened has no records, and no block too large for memory. -/
theorem Log.Opened.loaded (h : log.Opened file m base)
    (hnone : ∀ t ∈ log.transactions, ∀ b ∈ t.blocks, b.records = none) :
    ∀ t ∈ log.transactions, t.Loaded [] := by
  intro t ht b hb
  refine ⟨?_, fun rs hrs => ?_, by simp⟩
  · cases file with
    | none =>
      rw [(h.empty rfl).1] at ht
      cases ht
    | some f =>
      obtain ⟨_, hchain⟩ := h.chain f rfl
      have := hchain.le t ht b hb
      have := f.small
      omega
  · rw [hnone t ht b hb] at hrs
    cases hrs

end Ferret.Catalog
