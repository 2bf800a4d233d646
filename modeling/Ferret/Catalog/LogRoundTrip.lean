import Ferret.Catalog.LogAppend
import Ferret.Segment.RoundTrip

/-!
# The change log, written and read

The two directions together: what the writer appends is what a reader gets
back, and nothing a reader can be given makes it panic.
-/

namespace Ferret.Catalog

open Guarded List

variable {C : Checksum} {file file' : File} {m next : Manifest} {base : Counters}
    {changes : ChangeSet} {length : ℕ}

/-- The transaction that a change set becomes. -/
def appended (C : Checksum) (m next : Manifest) (changes : ChangeSet) : Envelope where
  sequence := next.generation.sequence
  counters := changes.counters
  blocks := placed C m.log_end.toNat (64 + (payloads changes.records).length * 48)
    (payloads changes.records)

theorem payloads_ne_nil {records : List Record} (h : records ≠ []) : payloads records ≠ [] := by
  intro hnil
  obtain ⟨r, rest, rfl⟩ := exists_cons_of_ne_nil h
  have hmem : r.family ∈ (payloads (r :: rest)).map Payload.family :=
    payloads_mem.mpr (by simp)
  rw [hnil] at hmem
  cases hmem

theorem Manifest.Follows.bundle (h : m.Follows C changes next length)
    (hne : changes.records ≠ []) : Bundle changes length (payloads changes.records) where
  fit := payloads_fit h.accepted h.count
  nodup := payloads_families _
  ne_nil := payloads_ne_nil hne
  length_eq := by rw [length_bodies]; exact h.length_eq

/-- **The log with a transaction appended opens** as what it was and one more
transaction. -/
theorem Log.open_append {log : Log} (hopen : Log.open C (some file) m base = .ok log)
    (h : m.Follows C changes next length) (hne : changes.records ≠ [])
    (hag : Agree file file' m.log_end.toNat)
    (hw : Written C changes next.generation.sequence m.generation.sequence length
      (payloads changes.records) file' m.log_end.toNat) :
    Log.open C (some file') next base = .ok {
      file := some file'
      transactions := log.transactions ++ [appended C m next changes]
      stop := next.log_end.toNat
      checkpoint := log.checkpoint } := by
  have hstop := hw.stop_le
  have hend := h.log_end
  simp only [Log.open, bind_eq_ok, ensure_eq_ok, read_exact_at_eq_ok, u32_at_eq_ok, pure_eq_ok,
    and_assoc, exists_and_left, exists_eq_left', exists_const] at hopen ⊢
  obtain ⟨hheader, _, _, hversion, hbytes, ⟨_, _, ts⟩, hloop, rest⟩ := hopen
  simp only at rest
  obtain ⟨hsequence, hcounters, hlog⟩ := rest
  subst hsequence hcounters hlog
  have h64 : slice file'.bytes 0 64 = slice file.bytes 0 64 :=
    hag.slice_eq (show 0 + 64 ≤ m.log_end.toNat from hheader)
  have hheader' : 64 ≤ m.log_end.toNat := hheader
  obtain ⟨fuel, _, hloop'⟩ := open_from_agree hag
    (show m.log_end.toNat ≤ next.log_end.toNat by omega) hheader hloop (next.log_end.toNat + 1)
    (by omega)
  have henv : read_envelope C file' m.log_end.toNat (next.log_end.toNat - m.log_end.toNat)
      m.generation.sequence m.counters = .ok (appended C m next changes, length) :=
    read_envelope_ok (h.bundle hne) hw (by omega) h.sequence h.last h.inode h.name h.le
  have hpos : 0 < length := by
    rw [h.length_eq]
    omega
  refine ⟨by omega, by omega, by omega, by rw [h64]; exact hversion, ?_, ?_⟩
  · rw [h64, h.base]
    exact hbytes
  · refine ⟨(next.generation.sequence, changes.counters, ts ++ [appended C m next changes]), ?_,
      rfl, h.counters.symm, ?_⟩
    · rw [h.checkpoint_sequence, hloop']
      obtain ⟨fuel, rfl⟩ : ∃ k, fuel = k + 1 := ⟨fuel - 1, by omega⟩
      obtain ⟨fuel, rfl⟩ : ∃ k, fuel = k + 1 := ⟨fuel - 1, by omega⟩
      have hadd : (add64 m.log_end.toNat length : Guarded OpenError ℕ) =
          .ok next.log_end.toNat := by
        have := next.log_end.toNat_lt
        rw [add64_eq_ok]
        omega
      rw [open_from, if_pos (by omega), henv]
      show (add64 m.log_end.toNat length >>= _) = _
      rw [hadd]
      show open_from C file' next.log_end.toNat (fuel + 1) next.log_end.toNat _ _ _ = _
      rw [open_from, if_neg (lt_irrefl _)]
      rfl
    · rw [h.checkpoint]

/-- The records of a family that a log yields. -/
def Log.read (C : Checksum) (family : Family) (log : Log) :
    Guarded OpenError (List (UInt64 × Record)) := do
  (← log.load C family).records family

/-- **The log with a transaction appended yields** the records it yielded, and
those of the change set. -/
theorem Log.read_append {log log' : Log} {family : Family} {old : List (UInt64 × Record)}
    (hlog : log.file = some file) (hlog' : log'.file = some file')
    (hcheckpoint : log'.checkpoint = log.checkpoint)
    (hts : log'.transactions = log.transactions ++ [appended C m next changes])
    (hle : ∀ t ∈ log.transactions, ∀ b ∈ t.blocks, b.offset + b.length ≤ m.log_end.toNat)
    (h : m.Follows C changes next length) (hag : Agree file file' m.log_end.toNat)
    (hw : Written C changes next.generation.sequence m.generation.sequence length
      (payloads changes.records) file' m.log_end.toNat)
    (hread : log.read C family = .ok old) :
    log'.read C family = .ok (old ++
      (changes.records.filter (·.family = family)).map fun r => (next.generation.sequence, r)) := by
  simp only [Log.read, Log.load, Log.records, bind_eq_ok, pure_eq_ok, hlog] at hread
  obtain ⟨_, ⟨ts, hload, rfl⟩, _, hgroups, rfl⟩ := hread
  have hold : log.transactions.mapM (Envelope.load C (some file') log.checkpoint family) =
      .ok ts := by
    rw [← hload]
    refine mapM_congr fun t ht => ?_
    simp only [Envelope.load, mapM_congr fun b hb => block_load_agree hag (hle t ht b hb)]
  have hnew : (appended C m next changes).load C (some file') log.checkpoint family =
      .ok { appended C m next changes with
        blocks := (appended C m next changes).blocks.map (filled changes.records family) } := by
    have hstop := hw.stop_le
    have hlength := h.length_eq
    simp only [Envelope.load, bind_eq_ok, pure_eq_ok]
    exact ⟨_, placed_load h.accepted h.count family (payloads_fit h.accepted h.count)
      (by rw [length_bodies]; omega) hw.bodies, rfl⟩
  obtain ⟨rs, hrs, hflatten⟩ := loaded_filled C m.log_end.toNat
    (64 + (payloads changes.records).length * 48) changes.records family
  have hrecords : Envelope.records family { appended C m next changes with
      blocks := (appended C m next changes).blocks.map (filled changes.records family) } =
        .ok ((changes.records.filter (·.family = family)).map
          fun r => (next.generation.sequence, r)) := by
    simp only [Envelope.records, bind_eq_ok, pure_eq_ok]
    exact ⟨rs, hrs, by rw [hflatten]; rfl⟩
  simp only [Log.read, Log.load, Log.records, bind_eq_ok, pure_eq_ok, hlog', hcheckpoint, hts]
  exact ⟨_, ⟨_, mapM_snoc_eq_ok hold hnew, rfl⟩, _, mapM_snoc_eq_ok hgroups hrecords, by simp⟩

/-- A file with a transaction after the published part of another. -/
theorem written_of_take {bytes : Bytes} (hbundle : Bundle changes length (payloads changes.records))
    (hbytes : bytes = tx_bytes C changes next.generation.sequence m.generation.sequence length
      (payloads changes.records)) (hlen : bytes.length = length)
    (hle : m.log_end.toNat ≤ file.bytes.length)
    (htake : file'.bytes.take (m.log_end.toNat + length) =
      file.bytes.take m.log_end.toNat ++ bytes) :
    Agree file file' m.log_end.toNat ∧
      Written C changes next.generation.sequence m.generation.sequence length
        (payloads changes.records) file' m.log_end.toNat := by
  have hlength : (file.bytes.take m.log_end.toNat).length = m.log_end.toNat := by
    rw [length_take]
    omega
  have hstop : m.log_end.toNat + length ≤ file'.bytes.length := by
    have := congrArg List.length htake
    rw [length_append, hlength, hlen, length_take] at this
    omega
  refine ⟨⟨hle, by omega, ?_⟩, hbundle.written hstop ?_⟩
  · have := congrArg (List.take m.log_end.toNat) htake
    rw [take_take, min_eq_left (by omega), take_append_of_le_length hlength.ge,
      take_take, min_self] at this
    exact this
  · rw [← hbytes, ← slice_take le_rfl, htake, slice_append hlength.le, hlength, Nat.sub_self]
    exact slice_whole hlen

/-- **The change log's codec.** A change set that the writer accepts is encoded
as a transaction of the length computed for it, and the log with it appended
opens as the old transactions and one more, of the same sequence and counters,
and yields its records by family, in order. And whatever the file and the
manifest say, opening the log and loading any of its families do not panic;
what they accept is tiled by transactions, and these by their blocks, with
every id below its transaction's counters. -/
theorem Log.codec (C : Checksum) :
    (∀ (file : File) (m next : Manifest) (base : Counters) (log : Log) (changes : ChangeSet)
        (sniffer : UInt32) (length : ℕ),
      Log.open C (some file) m base = .ok log → m.next C changes sniffer = .ok (next, length) →
      changes.records ≠ [] →
      checked_size changes next.generation.sequence = .ok length ∧
      ∃ bytes, encode C changes next.generation.sequence m.generation.sequence = .ok bytes ∧
        bytes.length = length ∧
        ∀ file' : File, file'.bytes.take (m.log_end.toNat + length) =
            file.bytes.take m.log_end.toNat ++ bytes →
          ∃ log' t, Log.open C (some file') next base = .ok log' ∧
            log'.transactions = log.transactions ++ [t] ∧
            t.sequence = next.generation.sequence ∧ t.counters = changes.counters ∧
            ∀ family old, log.read C family = .ok old →
              log'.read C family = .ok (old ++ (changes.records.filter (·.family = family)).map
                fun r => (next.generation.sequence, r))) ∧
    ∀ (file : Option File) (m : Manifest) (base : Counters),
      wp (Log.open C file m base) fun log => log.Opened file m base ∧
        ∀ families : List Family,
          wp (families.foldlM (fun log family => log.load C family) log) fun log' =>
            log'.Opened file m base ∧ ∀ t ∈ log'.transactions, ∀ b ∈ t.blocks,
              b.family ∈ families → ∃ rs, b.records = some rs ∧ rs.length = b.count.toNat ∧
                ∀ r ∈ rs, r.family = b.family ∧ r.Within t.counters t.sequence := by
  refine ⟨fun file m next base log changes sniffer length hopen hnext hne => ?_, fun file m base => ?_⟩
  · have h := Manifest.follows hnext
    obtain ⟨hopened, -⟩ := wp_of_ok wp_open hopen
    obtain ⟨hle, hchain⟩ := hopened.chain file rfl
    have hbundle := h.bundle hne
    refine ⟨h.size, _, encode_eq h.accepted h.count h.length_eq, hbundle.length_bytes,
      fun file' htake => ?_⟩
    obtain ⟨hag, hw⟩ := written_of_take hbundle rfl hbundle.length_bytes hle htake
    refine ⟨_, _, Log.open_append hopen h hne hag hw, rfl, rfl, rfl, fun family old hread => ?_⟩
    exact Log.read_append hopened.file_eq rfl rfl rfl hchain.le h hag hw hread
  · refine wp_mono wp_open fun log ⟨hopened, hnone⟩ => ⟨hopened, fun families => ?_⟩
    refine wp_mono (wp_load_each (hopened.loaded hnone)) fun log' ⟨hsame, hloaded⟩ => ?_
    refine ⟨hopened.same hsame, fun t ht b hb hf => ?_⟩
    obtain ⟨-, hsound, hsome⟩ := hloaded t ht b hb
    obtain ⟨rs, hrs⟩ := Option.isSome_iff_exists.mp (hsome (by simpa using hf))
    exact ⟨rs, hrs, hsound rs hrs⟩

/-! ## A first transaction -/

/-- A catalog with a root, and nothing logged. -/
def sample_manifest : Manifest where
  generation := { incarnation := ⟨List.replicate 16 1, rfl⟩, checkpoint := 0, sequence := 0 }
  log_end := 64
  checkpoint_sequence := 0
  sniffer := 1
  counters := ⟨1, 0, 0⟩
  counts := ⟨1, 0, 1, 0⟩

def sample_file : File where
  bytes := header folded sample_manifest.generation
  small := by decide +kernel

/-- A document, and a name that an ignore file reveals. -/
def sample_changes : ChangeSet where
  records := [.docPut 0 1 ⟨List.replicate 16 9, rfl⟩, .namePut 0 0 0xfffffffd [97] true]
  counters := ⟨1, 1, 1⟩
  counts := ⟨1, 1, 1, 1⟩

def sample_next : Manifest :=
  { sample_manifest with
    generation := { sample_manifest.generation with sequence := 1 }
    log_end := 320
    counters := sample_changes.counters
    counts := sample_changes.counts }

theorem sample_changes_appended :
    ∃ bytes file log, encode folded sample_changes 1 0 = .ok bytes ∧ bytes.length = 256 ∧
      file.bytes = sample_file.bytes ++ bytes ∧
      Log.open folded (some file) sample_next ⟨1, 0, 0⟩ = .ok log ∧
      log.read folded .nameSpace = .ok [(1, .namePut 0 0 0xfffffffd [97] true)] := by
  have hopen : Log.open folded (some sample_file) sample_manifest ⟨1, 0, 0⟩ =
      .ok { file := some sample_file, transactions := [], stop := 64, checkpoint := 0 } := by
    decide +kernel
  have hnext : sample_manifest.next folded sample_changes 1 = .ok (sample_next, 256) := by
    decide +kernel
  obtain ⟨-, bytes, hbytes, hlen, hread⟩ := (Log.codec folded).1 _ _ _ _ _ _ _ _ hopen hnext
    (by decide)
  have hfile : sample_file.bytes.length = 64 := by decide +kernel
  have hlog_end : sample_manifest.log_end.toNat = 64 := rfl
  obtain ⟨log, t, hlog, -, -, -, hfamily⟩ := hread
    ⟨sample_file.bytes ++ bytes, by rw [length_append]; omega⟩ (by
      rw [hlog_end, take_of_length_le (by rw [length_append]; omega), take_of_length_le (by omega)])
  exact ⟨bytes, _, log, hbytes, hlen, rfl, hlog, hfamily .nameSpace [] rfl⟩

/-- The file and the manifest after some transactions, each of the sequence it was given. -/
inductive Appends (C : Checksum) (file : File) (m : Manifest) :
    List (UInt64 × ChangeSet) → File → Manifest → Prop
  | nil : Appends C file m [] file m
  | snoc {sets file₁ m₁ file₂ next changes sniffer length bytes} :
      Appends C file m sets file₁ m₁ → m₁.next C changes sniffer = .ok (next, length) →
      changes.records ≠ [] →
      encode C changes next.generation.sequence m₁.generation.sequence = .ok bytes →
      file₂.bytes.take (m₁.log_end.toNat + length) = file₁.bytes.take m₁.log_end.toNat ++ bytes →
      Appends C file m (sets ++ [(next.generation.sequence, changes)]) file₂ next

/-- **A log yields its history**: after any transactions it opens, and yields the records it did
and those of every change set, in order. -/
theorem Log.history {log : Log} {m' : Manifest} {sets : List (UInt64 × ChangeSet)}
    (hopen : Log.open C (some file) m base = .ok log) (h : Appends C file m sets file' m') :
    ∃ log', Log.open C (some file') m' base = .ok log' ∧
      ∀ family old, log.read C family = .ok old →
        log'.read C family = .ok (old ++ sets.flatMap fun set =>
          (set.2.records.filter (·.family = family)).map fun r => (set.1, r)) := by
  induction h with
  | nil => exact ⟨log, hopen, fun family old hold => by rw [flatMap_nil, append_nil, hold]⟩
  | snoc _ hnext hne hbytes htake ih =>
    obtain ⟨log', hopen', hread⟩ := ih
    have h := Manifest.follows hnext
    obtain ⟨hopened, -⟩ := wp_of_ok wp_open hopen'
    obtain ⟨hle, hchain⟩ := hopened.chain _ rfl
    have hbundle := h.bundle hne
    cases (encode_eq h.accepted h.count h.length_eq).symm.trans hbytes
    obtain ⟨hag, hw⟩ := written_of_take hbundle rfl hbundle.length_bytes hle htake
    refine ⟨_, Log.open_append hopen' h hne hag hw, fun family old hold => ?_⟩
    rw [flatMap_append, flatMap_singleton, ← append_assoc]
    exact Log.read_append hopened.file_eq rfl rfl rfl hchain.le h hag hw (hread family old hold)

theorem sample_history :
    ∃ file log, Log.open folded (some file) sample_next ⟨1, 0, 0⟩ = .ok log ∧
      log.read folded .nameSpace = .ok [(1, .namePut 0 0 0xfffffffd [97] true)] := by
  have hopen : Log.open folded (some sample_file) sample_manifest ⟨1, 0, 0⟩ =
    .ok ⟨some sample_file, [], 64, 0⟩ := by decide +kernel
  have hnext : sample_manifest.next folded sample_changes 1 = .ok (sample_next, 256) := by
    decide +kernel
  have h := Manifest.follows hnext
  obtain ⟨bytes, hbytes, hlen⟩ : ∃ bytes, encode folded sample_changes 1 0 = .ok bytes ∧
      bytes.length = 256 :=
    ⟨_, encode_eq h.accepted h.count h.length_eq, (h.bundle (by decide)).length_bytes⟩
  have hsum : (sample_file.bytes ++ bytes).length = 320 := by
    rw [length_append, hlen]
    decide +kernel
  have hall : Appends folded sample_file sample_manifest _
      ⟨sample_file.bytes ++ bytes, by rw [hsum]; decide⟩ sample_next :=
    .snoc .nil hnext (by decide) hbytes ((take_of_length_le hsum.le).trans
      (congrArg (· ++ bytes) (take_of_length_le (by decide +kernel)).symm))
  obtain ⟨log, hlog, hread⟩ := Log.history hopen hall
  exact ⟨_, log, hlog, hread .nameSpace [] rfl⟩

end Ferret.Catalog
