/-
  AccessManagement.Storage.HubList — THE POLICY IDS OF A BUNDLE.
  (`internal/storage/hub/ruletable_bundle.go`, `legacy_bundle.go`: `ListPolicyIDs`)

  Both kinds of bundle walk over the names of their policies and return policy keys: the names
  without `cerbos.`.  When IDs are given, it is the full name that is looked up among them.

  Main result: `listPolicyIDs_given_iff` — for which bundles and IDs the IDs that are asked for are
  the ones that come back.
-/
import AccessManagement.Policy.Namer
import AccessManagement.Storage.HubSource
import Mathlib.Data.Finset.Max

namespace AccessManagement.Storage.Hub

open Namer

/-- What a bundle lists its policies from: the metadata of a rule table by module ID, or the policy
index of a manifest, which has the file of each name. -/
inductive Listing where
  | ruleTable (metadata : List (UInt64 × String))
  | legacy (policyIndex : List (String × String))

def Listing.policyFqns : Listing → List String
  -- `policyFQNs` is a set
  | .ruleTable metadata => (metadata.map Prod.snd).eraseDups
  | .legacy policyIndex => policyIndex.map Prod.fst

/-- The loop of `ListPolicyIDs`. -/
def policyKeys (fqns ids : List String) : List String :=
  (if ids.length > 0 then fqns.filter (ids.contains ·) else fqns).map policyKeyFromFqn

/-- `ListPolicyIDs`, of a bundle that may be nil. -/
def listPolicyIDs (bundle : Option Listing) (ids : List String) : Except Failure (List String) :=
  match bundle with
  | none => .error .bundleNotLoaded
  | some b => .ok (policyKeys b.policyFqns ids)

def HasFqnPrefix (name : String) : Prop := fqnPrefix.toList.isPrefixOf name.toList = true

instance (name : String) : Decidable (HasFqnPrefix name) := inferInstanceAs (Decidable (_ = _))

theorem policyKeyFromFqn_of_not {fqn : String} (h : ¬ HasFqnPrefix fqn) :
    policyKeyFromFqn fqn = fqn := if_neg h

theorem policyKeyFromFqn_length_lt {fqn : String} (h : HasFqnPrefix fqn) :
    (policyKeyFromFqn fqn).length < fqn.length := by
  have hle := (List.isPrefixOf_iff_prefix.mp h).length_le
  have hpos : 0 < fqnPrefix.length := by decide
  unfold policyKeyFromFqn
  rw [if_pos (show fqnPrefix.toList.isPrefixOf fqn.toList = true from h), String.length_ofList,
    List.length_drop]
  rw [String.length_toList, String.length_toList] at *
  omega

theorem mem_policyKeys {fqns ids : List String} (hids : ids ≠ []) {id : String} :
    id ∈ policyKeys fqns ids ↔ ∃ fqn ∈ fqns, fqn ∈ ids ∧ policyKeyFromFqn fqn = id := by
  unfold policyKeys
  rw [if_pos (List.length_pos_of_ne_nil hids)]
  simp [and_assoc]

/-- If the IDs come back, none of them has the prefix: the longest one that has it would be the key
of a longer one. -/
theorem not_hasFqnPrefix_of_returned {fqns ids : List String}
    (h : ∀ id ∈ ids, ∃ fqn ∈ fqns, fqn ∈ ids ∧ policyKeyFromFqn fqn = id) :
    ∀ id ∈ ids, ¬ HasFqnPrefix id := by
  intro id hid hpre
  obtain ⟨j, hj, hmax⟩ := (ids.toFinset.filter HasFqnPrefix).exists_max_image String.length
    ⟨id, by simp [hid, hpre]⟩
  simp only [Finset.mem_filter, List.mem_toFinset] at hj hmax
  obtain ⟨fqn, -, hfqn, hkey⟩ := h j hj.1
  by_cases hf : HasFqnPrefix fqn
  · have hlt := policyKeyFromFqn_length_lt hf
    have hle := hmax fqn ⟨hfqn, hf⟩
    rw [hkey] at hlt
    omega
  · rw [policyKeyFromFqn_of_not hf] at hkey
    exact hf (hkey ▸ hj.2)

/-- **THE GIVEN IDS ARE THE ONES RETURNED EXACTLY WHEN** there are no policies, or IDs are given and
each is the full name of a policy that does not start with `cerbos.`. -/
theorem listPolicyIDs_given_iff {b : Listing} {ids all : List String}
    (hall : listPolicyIDs (some b) [] = .ok all) (hids : ∀ id ∈ ids, id ∈ all) :
    (∃ out, listPolicyIDs (some b) ids = .ok out ∧ ∀ id, id ∈ out ↔ id ∈ ids) ↔ b.policyFqns = [] ∨
        ids ≠ [] ∧ ∀ id ∈ ids, id ∈ b.policyFqns ∧ ¬ HasFqnPrefix id := by
  have hret : (∃ out, listPolicyIDs (some b) ids = .ok out ∧ ∀ id, id ∈ out ↔ id ∈ ids) ↔
      ∀ id, id ∈ policyKeys b.policyFqns ids ↔ id ∈ ids := by
    unfold listPolicyIDs
    simp
  rw [hret]
  by_cases hnil : ids = []
  · subst hnil
    unfold policyKeys
    simp [← List.eq_nil_iff_forall_not_mem]
  have hne : b.policyFqns ≠ [] := by
    intro hempty
    injection hall with hall
    rw [hempty] at hall
    subst hall
    exact hnil (List.eq_nil_iff_forall_not_mem.mpr fun id hid => by simpa [policyKeys] using hids id hid)
  simp only [mem_policyKeys hnil, hne, hnil, ne_eq, not_false_eq_true, true_and, false_or]
  constructor
  · intro h id hid
    have hplain := not_hasFqnPrefix_of_returned fun id hid => (h id).mpr hid
    obtain ⟨fqn, hfqn, hmem, hkey⟩ := (h id).mpr hid
    rw [policyKeyFromFqn_of_not (hplain fqn hmem)] at hkey
    exact ⟨hkey ▸ hfqn, hplain id hid⟩
  · intro h id
    constructor
    · rintro ⟨fqn, -, hmem, hkey⟩
      rw [policyKeyFromFqn_of_not (h fqn hmem).2] at hkey
      exact hkey ▸ hmem
    · intro hid
      exact ⟨id, (h id hid).1, hid, policyKeyFromFqn_of_not (h id hid).2⟩

theorem listPolicyIDs_given_plain :
    ∃ out, listPolicyIDs (some (.legacy [("plain", "a.yaml")])) ["plain"] = .ok out ∧
      ∀ id, id ∈ out ↔ id ∈ ["plain"] :=
  (listPolicyIDs_given_iff rfl (by decide)).mpr (Or.inr ⟨by decide, by decide⟩)

/-- **The ID of a policy finds nothing**: its full name is not among the IDs. -/
theorem listPolicyIDs_misses_listed :
    listPolicyIDs (some (.ruleTable [(7, resourcePolicyFqn "doc" "default" "")])) [] =
        .ok ["resource.doc.vdefault"] ∧
      listPolicyIDs (some (.ruleTable [(7, resourcePolicyFqn "doc" "default" "")]))
        ["resource.doc.vdefault"] = .ok [] := by
  decide

end AccessManagement.Storage.Hub
