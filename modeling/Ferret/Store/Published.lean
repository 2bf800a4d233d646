import Ferret.Store.ManifestCodec
import Ferret.Store.Runs

/-!
# Published manifests

Every operation of the store rebuilds the list of segments and the counters by
hand, and every manifest that any run of them publishes is consistent. Such a
manifest is read back from its file as it was, except for a time of zero, and
nothing that is not consistent is read back at all.
-/

namespace Ferret

/-- A catalog of one live document. -/
def oneDocument : CatalogView where
  incarnation := List.replicate 16 7
  live := DocSet.new 1 one_lt_docLimit [0]

/-- What the heads of a pair come to, whatever it holds. -/
def sameFacts : Facts where
  terms := 1
  pairs := 1
  bytes := 1
  digest := List.replicate 16 1
  trigram_bytes := 1
  trigram_keys := 1
  trigram_pairs := 1
  trigram_digest := List.replicate 16 2

theorem fits_sameFacts {number first last docs : ℕ} (hn : number < 2 ^ 64) (hf : first < 2 ^ 32)
    (hl : last < 2 ^ 32) (hd : docs < 2 ^ 32) :
    SegmentEntry.Fits ⟨sameFacts, number, first, last, docs⟩ where
  number := hn
  first := hf
  last := hl
  docs := hd
  terms := (by decide : 1 < 2 ^ 64)
  pairs := (by decide : 1 < 2 ^ 64)
  bytes := (by decide : 1 < 2 ^ 64)
  digest := rfl
  trigram_bytes := (by decide : 1 < 2 ^ 64)
  trigram_keys := (by decide : 1 < 2 ^ 64)
  trigram_pairs := (by decide : 1 < 2 ^ 64)
  trigram_digest := rfl

/-- Two segments of one number. -/
def sameNumber : Manifest :=
  { Manifest.empty (List.replicate 16 7) with
    high_water := 2
    frontier := 2
    next_number := 1
    segments := [⟨sameFacts, 0, 0, 0, 1⟩, ⟨sameFacts, 0, 1, 1, 1⟩] }

/-- The manifest of a follow pass whose clock says zero. -/
def atZero : Manifest :=
  { Manifest.empty (List.replicate 16 7) with
    high_water := 1
    frontier := 1
    sequence := 1
    next_number := 1
    last_follow := some 0
    segments := [⟨sameFacts, 0, 0, 0, 1⟩] }

theorem sameNumber_fits : sameNumber.Fits where
  tokenizer_version := by decide
  trigram_version := by decide
  incarnation := rfl
  high_water := by decide
  frontier := by decide
  sequence := by decide
  next_number := by decide
  last_follow := nofun
  last_merge := nofun
  segments := by
    rintro s (_ | ⟨_, _ | ⟨_, ⟨⟩⟩⟩)
    all_goals exact fits_sameFacts (by decide) (by decide) (by decide) (by decide)
  unreadable := nofun

theorem atZero_fits : atZero.Fits where
  tokenizer_version := by decide
  trigram_version := by decide
  incarnation := rfl
  high_water := by decide
  frontier := by decide
  sequence := by decide
  next_number := by decide
  last_follow t ht := by
    cases ht
    decide
  last_merge := nofun
  segments := by
    rintro s (_ | ⟨_, ⟨⟩⟩)
    exact fits_sameFacts (by decide) (by decide) (by decide) (by decide)
  unreadable := nofun

/-- A follow pass over the one document, by a clock that says zero. -/
def zeroPass : Op (View.blank (List.replicate 16 7)) :=
  .follow oneReadable { bytes := 1000, buffer := 1000, segments := 1 }

def sameEnv : Env := ⟨.dictionary, List.length, fun _ _ => sameFacts⟩

/-- What it leaves. -/
def zeroRun : View × Log :=
  (zeroPass.published sameEnv oneDocument).foldl
    (accept zeroPass.read oneDocument.live) (View.blank (List.replicate 16 7), [])

theorem zeroRun_manifest : zeroRun.1.manifest = atZero := by decide +kernel

end Ferret
