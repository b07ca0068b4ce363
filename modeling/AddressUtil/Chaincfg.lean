import AddressUtil.Basic

/-! bchutil's `chaincfg` network parameters and the registry `init` fills through `mustRegister`,
with its invariant over whole runs (`Reflects`). -/

namespace AddressUtil.Chaincfg

/-- The fields of `util.Params` that the address code reads. -/
structure Params where
  net : UInt32
  legacyPubKeyHashAddrID : UInt8
  legacyScriptHashAddrID : UInt8
  deriving DecidableEq, Repr

/-- `MainNetParams`. -/
def mainNetParams : Params := ⟨0xe8f3e1e3, 0x00, 0x05⟩

/-- `RegressionNetParams`, on `TestNet`. -/
def regressionNetParams : Params := ⟨0xfabfb5da, 0x6f, 0xc4⟩

/-- `TestNet3Params`. -/
def testNet3Params : Params := ⟨0xf4f3e5f4, 0x6f, 0xc4⟩

/-- `SimNetParams`. -/
def simNetParams : Params := ⟨0x12141c16, 0x3f, 0x7b⟩

/-- The parameter sets a `*util.Params` of the address code points to, compared by address
as Go compares map keys. -/
inductive Net where
  | mainNet
  | testNet3
  | regressionNet
  | simNet
  deriving DecidableEq, Repr

/-- The variable each `Net` points to. -/
def Net.params : Net → Params
  | .mainNet => mainNetParams
  | .testNet3 => testNet3Params
  | .regressionNet => regressionNetParams
  | .simNet => simNetParams

/-- The package's maps, as the lists of their keys: `registeredNets`, `pubKeyHashAddrIDs`
and `scriptHashAddrIDs`. -/
structure Registry where
  registeredNets : List UInt32
  pubKeyHashAddrIDs : List UInt8
  scriptHashAddrIDs : List UInt8
  deriving DecidableEq, Repr

/-- The maps as `make` leaves them. -/
def empty : Registry := ⟨[], [], []⟩

/-- `Register`. -/
def register (params : Params) (r : Registry) : Except GoError Registry :=
  if params.net ∈ r.registeredNets then .error .errDuplicateNet
  else .ok ⟨params.net :: r.registeredNets, params.legacyPubKeyHashAddrID :: r.pubKeyHashAddrIDs,
    params.legacyScriptHashAddrID :: r.scriptHashAddrIDs⟩

/-- `mustRegister`; `none` is its panic. -/
def mustRegister (params : Params) (r : Registry) : Option Registry :=
  match register params r with
  | .ok r => some r
  | .error _ => none

/-- `init`: the four networks, in order. -/
def init : Option Registry :=
  [mainNetParams, testNet3Params, regressionNetParams, simNetParams].foldlM
    (fun r p => mustRegister p r) empty

/-- `IsPubKeyHashAddrID` on a registry. -/
def isPubKeyHashAddrID (r : Registry) (id : UInt8) : Bool := id ∈ r.pubKeyHashAddrIDs

/-- `IsScriptHashAddrID` on a registry. -/
def isScriptHashAddrID (r : Registry) (id : UInt8) : Bool := id ∈ r.scriptHashAddrIDs

/-- The registry records exactly the parameters `ps`, the latest first, each network once. -/
structure Reflects (r : Registry) (ps : List Params) : Prop where
  nets : r.registeredNets = ps.map Params.net
  pubKeyHash : r.pubKeyHashAddrIDs = ps.map Params.legacyPubKeyHashAddrID
  scriptHash : r.scriptHashAddrIDs = ps.map Params.legacyScriptHashAddrID
  nodup : (ps.map Params.net).Nodup

theorem empty_reflects : Reflects empty [] := ⟨rfl, rfl, rfl, List.nodup_nil⟩

/-- What `register` can do: refuse a registered network and change nothing, or add the
parameters. -/
theorem register_cases (params : Params) (r : Registry) :
    (params.net ∈ r.registeredNets ∧ register params r = .error .errDuplicateNet) ∨
      (params.net ∉ r.registeredNets ∧ register params r = .ok ⟨params.net :: r.registeredNets,
        params.legacyPubKeyHashAddrID :: r.pubKeyHashAddrIDs,
        params.legacyScriptHashAddrID :: r.scriptHashAddrIDs⟩) := by
  by_cases h : params.net ∈ r.registeredNets
  · exact .inl ⟨h, if_pos h⟩
  · exact .inr ⟨h, if_neg h⟩

theorem register_reflects {r r' : Registry} {ps : List Params} {params : Params}
    (hr : Reflects r ps) (h : register params r = .ok r') : Reflects r' (params :: ps) := by
  rcases register_cases params r with ⟨-, he⟩ | ⟨hn, he⟩
  · rw [he] at h; cases h
  · rw [he] at h
    cases h
    exact ⟨by simp [hr.nets], by simp [hr.pubKeyHash], by simp [hr.scriptHash],
      List.nodup_cons.mpr ⟨hr.nets ▸ hn, hr.nodup⟩⟩

theorem registerAll_reflects {r r' : Registry} {ps : List Params} (hr : Reflects r ps)
    (qs : List Params) (h : qs.foldlM (fun r p => mustRegister p r) r = some r') :
    Reflects r' (qs.reverse ++ ps) := by
  induction qs generalizing r ps with
  | nil => cases h; simpa using hr
  | cons q qs ih =>
    simp only [List.foldlM_cons, Option.bind_eq_bind, Option.bind_eq_some] at h
    obtain ⟨r₁, h₁, h⟩ := h
    have hreg : register q r = .ok r₁ := by
      unfold mustRegister at h₁
      split at h₁ <;> cases h₁
      assumption
    simpa using ih (register_reflects hr hreg) h

/-- A version byte is a P2PKH byte exactly when a registered network uses it. -/
theorem isPubKeyHashAddrID_iff {r : Registry} {ps : List Params} (hr : Reflects r ps)
    (id : UInt8) : isPubKeyHashAddrID r id = true ↔ ∃ p ∈ ps, p.legacyPubKeyHashAddrID = id := by
  simp [isPubKeyHashAddrID, hr.pubKeyHash]

theorem isScriptHashAddrID_iff {r : Registry} {ps : List Params} (hr : Reflects r ps)
    (id : UInt8) : isScriptHashAddrID r id = true ↔ ∃ p ∈ ps, p.legacyScriptHashAddrID = id := by
  simp [isScriptHashAddrID, hr.scriptHash]

/-- A run of `mustRegister` from a registry that reflects `ps` goes through once no network
repeats among the parameters registered before and during the run. -/
theorem registerAll_isSome {r : Registry} {ps : List Params} (hr : Reflects r ps)
    (qs : List Params) (hnd : ((qs.reverse ++ ps).map Params.net).Nodup) :
    ∃ r', qs.foldlM (fun r p => mustRegister p r) r = some r' := by
  induction qs generalizing r ps with
  | nil => exact ⟨r, rfl⟩
  | cons q qs ih =>
    rw [List.reverse_cons, List.append_assoc, List.singleton_append] at hnd
    have hq : q.net ∉ r.registeredNets := by
      rw [hr.nets]
      exact (List.nodup_cons.mp (List.map_append _ _ _ ▸ hnd).of_append_right).1
    obtain ⟨r₁, hreg⟩ : ∃ r₁, register q r = .ok r₁ := by
      rcases register_cases q r with ⟨hin, -⟩ | ⟨-, hreg⟩
      · exact absurd hin hq
      · exact ⟨_, hreg⟩
    have hmust : mustRegister q r = some r₁ := by rw [mustRegister, hreg]
    rw [List.foldlM_cons, hmust]
    exact ih (register_reflects hr hreg) hnd

/-- The runs `init` is one of: registering a list of parameters from the empty maps goes
through exactly when no network repeats, and the maps then know a version byte exactly when
a registered network uses it. -/
theorem registerAll_empty (qs : List Params) :
    ((∃ r, qs.foldlM (fun r p => mustRegister p r) empty = some r) ↔ (qs.map Params.net).Nodup) ∧
    ∀ r, qs.foldlM (fun r p => mustRegister p r) empty = some r → ∀ id,
      (isPubKeyHashAddrID r id = true ↔ ∃ p ∈ qs, p.legacyPubKeyHashAddrID = id) ∧
      (isScriptHashAddrID r id = true ↔ ∃ p ∈ qs, p.legacyScriptHashAddrID = id) := by
  have hrev : ∀ l : List Params, ((l.reverse ++ []).map Params.net).Nodup ↔ (l.map Params.net).Nodup :=
    fun l => by rw [List.append_nil, List.map_reverse, List.nodup_reverse]
  refine ⟨⟨fun ⟨r, h⟩ => (hrev qs).mp (registerAll_reflects empty_reflects qs h).nodup,
    fun hnd => registerAll_isSome empty_reflects qs ((hrev qs).mpr hnd)⟩, fun r h id => ?_⟩
  have hr := registerAll_reflects empty_reflects qs h
  rw [List.append_nil] at hr
  simp only [isPubKeyHashAddrID_iff hr, isScriptHashAddrID_iff hr, List.mem_reverse, and_self]

/-- The registry `init` leaves. -/
def registry : Registry := init.getD empty

theorem init_eq : init = some registry := by decide

theorem registry_reflects :
    Reflects registry [simNetParams, regressionNetParams, testNet3Params, mainNetParams] := by
  simpa using registerAll_reflects empty_reflects _ init_eq

theorem isPubKeyHashAddrID_registry (id : UInt8) :
    isPubKeyHashAddrID registry id = true ↔ id = 0x00 ∨ id = 0x6f ∨ id = 0x3f := by
  rw [isPubKeyHashAddrID_iff registry_reflects]
  simp [mainNetParams, testNet3Params, regressionNetParams, simNetParams, eq_comm]
  tauto

theorem isScriptHashAddrID_registry (id : UInt8) :
    isScriptHashAddrID registry id = true ↔ id = 0x05 ∨ id = 0xc4 ∨ id = 0x7b := by
  rw [isScriptHashAddrID_iff registry_reflects]
  simp [mainNetParams, testNet3Params, regressionNetParams, simNetParams, eq_comm]
  tauto

/-- The two tests as the decoders branch on them. -/
theorem isPubKeyHashAddrID_registry_eq (id : UInt8) :
    isPubKeyHashAddrID registry id = decide (id = 0x00 ∨ id = 0x6f ∨ id = 0x3f) :=
  Bool.eq_iff_iff.mpr (by rw [isPubKeyHashAddrID_registry, decide_eq_true_iff])

theorem isScriptHashAddrID_registry_eq (id : UInt8) :
    isScriptHashAddrID registry id = decide (id = 0x05 ∨ id = 0xc4 ∨ id = 0x7b) :=
  Bool.eq_iff_iff.mpr (by rw [isScriptHashAddrID_registry, decide_eq_true_iff])

end AddressUtil.Chaincfg
