import L4Bootstrap.Startup.StartupImages
import Mathlib.Data.List.Forall2

/-!
# The arrays of offsets

`sigma0_offset` and `roottask_offset` are not initialised, and the elements of a node without
a KIP or without a module stay so. None of these is used: with other contents of the stack
the run is the same.
-/

namespace L4Bootstrap

open MachineWord CheckedState ByteMemory

set_option autoImplicit false

variable {W : Wordsize}

/-- The elements of a node agree where they are used. -/
structure SameOffsets (around : Surroundings W) (s : Machine W) (kernel : Nat)
    (n other : Nat × NodeOffsets) : Prop where
  node : n.1 = other.1
  sigma0 : s.kipPresent around kernel n.1 = true → (s.baseModIdx around .sigma0 n.1).isSome →
    n.2.sigma0 = other.2.sigma0
  roottask : s.kipPresent around kernel n.1 = true → (s.baseModIdx around .roottask n.1).isSome →
    n.2.roottask = other.2.roottask

section

variable {around : Surroundings W} {s u v w t : Machine W} {kernel node : Nat}
  {regions : RegionList W}

/-! ## The loop that reserves -/

theorem reserve_image_state {index minAlign offset : Nat} {type : RegionType}
    (ran : reserveImage around index type node minAlign u = .ok offset t) :
    ∃ regions, t = u.withRegions regions := by
  rw [reserveImage, get_bind, CheckedState.bind_ok_iff] at ran
  obtain ⟨⟨_, regions⟩, v, added, ran⟩ := ran
  obtain ⟨_, rfl⟩ := lift_ok_iff.mp added
  simp only [CheckedState.bind_ok_iff, modify_ok_iff, pure_ok_iff] at ran
  obtain ⟨_, _, ⟨_, rfl⟩, _, rfl⟩ := ran
  exact ⟨regions, rfl⟩

/-- What was in the element matters only when there is no module. -/
theorem reserve_module_other {flag : ModuleFlag} {type : RegionType} {before after : Nat}
    (ran : reserveModule around flag type node before (s.withRegions regions) = .ok after t)
    (before' : Nat) : ∃ after', reserveModule around flag type node before' (s.withRegions regions) =
        .ok after' t ∧ ((s.baseModIdx around flag node).isSome → after = after') ∧
      ∃ grown, t = s.withRegions grown := by
  have same : (s.withRegions regions).baseModIdx around flag node =
      s.baseModIdx around flag node := rfl
  rw [reserveModule, get_bind, same] at ran
  rw [reserveModule, get_bind, same]
  cases found : s.baseModIdx around flag node with
  | none =>
      rw [found] at ran
      obtain ⟨rfl, rfl⟩ := pure_ok_iff.mp ran
      exact ⟨before', rfl, by simp, regions, rfl⟩
  | some index =>
      rw [found] at ran
      obtain ⟨grown, rfl⟩ := reserve_image_state ran
      exact ⟨after, ran, fun _ => rfl, grown, rfl⟩

theorem reserve_node_other {before after : NodeOffsets}
    (ran : reserveNode around kernel node before (s.withRegions regions) = .ok after t)
    (before' : NodeOffsets) : ∃ after', reserveNode around kernel node before'
        (s.withRegions regions) = .ok after' t ∧
      SameOffsets around s kernel (node, after) (node, after') ∧
      ∃ grown, t = s.withRegions grown := by
  rw [reserveNode, get_bind, CheckedState.bind_ok_iff] at ran
  obtain ⟨present, u, searched, ran⟩ := ran
  obtain ⟨isSearch, rfl⟩ := lift_ok_iff.mp searched
  have search : s.KipSearch around kernel node present := isSearch
  have isPresent := search.present
  cases present with
  | false =>
      obtain ⟨rfl, rfl⟩ := pure_ok_iff.mp ran
      refine ⟨before', ?_, ⟨rfl, by simp [isPresent], by simp [isPresent]⟩, regions, rfl⟩
      rw [reserveNode, get_bind, CheckedState.bind_ok_iff]
      exact ⟨false, _, searched, rfl⟩
  | true =>
      simp only [Bool.not_true, Bool.false_eq_true, if_false, CheckedState.bind_ok_iff] at ran
      obtain ⟨sigma0, mid, ranSigma0, roottask, last, ranRoottask, ran⟩ := ran
      obtain ⟨rfl, rfl⟩ := pure_ok_iff.mp ran
      obtain ⟨sigma0', otherSigma0, sameSigma0, more, rfl⟩ :=
        reserve_module_other ranSigma0 before'.sigma0
      obtain ⟨roottask', otherRoottask, sameRoottask, grown, rfl⟩ :=
        reserve_module_other ranRoottask before'.roottask
      refine ⟨⟨sigma0', roottask'⟩, ?_, ⟨rfl, fun _ => sameSigma0, fun _ => sameRoottask⟩, grown, rfl⟩
      rw [reserveNode, get_bind, CheckedState.bind_ok_iff]
      refine ⟨true, _, searched, ?_⟩
      simp only [Bool.not_true, Bool.false_eq_true, if_false, CheckedState.bind_ok_iff]
      exact ⟨sigma0', _, otherSigma0, roottask', _, otherRoottask, rfl⟩

theorem reserve_nodes_other {nodes others reserved : List (Nat × NodeOffsets)}
    (sameNodes : nodes.map Prod.fst = others.map Prod.fst)
    (ran : reserveNodes around kernel nodes (s.withRegions regions) = .ok reserved t) :
    ∃ reserved', reserveNodes around kernel others (s.withRegions regions) = .ok reserved' t ∧
      List.Forall₂ (SameOffsets around s kernel) reserved reserved' := by
  induction nodes generalizing others reserved regions with
  | nil =>
      obtain ⟨rfl, rfl⟩ := pure_ok_iff.mp ran
      rw [List.map_eq_nil_iff.mp sameNodes.symm]
      exact ⟨[], rfl, .nil⟩
  | cons n rest ih =>
      cases others with
      | nil => cases sameNodes
      | cons other otherRest =>
          obtain ⟨node, before⟩ := n
          obtain ⟨otherNode, before'⟩ := other
          rw [List.map_cons, List.map_cons, List.cons.injEq] at sameNodes
          obtain ⟨sameNode, sameRest⟩ := sameNodes
          change node = otherNode at sameNode
          subst sameNode
          simp only [reserveNodes, CheckedState.bind_ok_iff] at ran
          obtain ⟨after, mid, ranNode, later, last, ranRest, ran⟩ := ran
          obtain ⟨rfl, rfl⟩ := pure_ok_iff.mp ran
          obtain ⟨after', otherNode, same, grown, rfl⟩ := reserve_node_other ranNode before'
          obtain ⟨later', otherLater, sameLater⟩ := ih sameRest ranRest
          refine ⟨(node, after') :: later', ?_, .cons same sameLater⟩
          simp only [reserveNodes, CheckedState.bind_ok_iff]
          exact ⟨after', _, otherNode, later', _, otherLater, rfl⟩

end

/-! ## The loop that loads -/

section

variable {around : Surroundings W} {s mid v w : Machine W} {images loaded : List (Nat × Nat)}
  {kernel kernelOffset : Nat} {patched : Nat → Nat → Prop} {node : Nat}

theorem load_module_other {flag : ModuleFlag} {offset other : Nat} {answer : Option LoadedImage}
    (state : Loaded around s mid images (patched kernelOffset) loaded v)
    (ready : ReadyToLoad around s mid images)
    (same : (s.baseModIdx around flag node).isSome → offset = other)
    (ran : loadModule around flag node offset v = .ok answer w) :
    loadModule around flag node other v = .ok answer w := by
  rw [loadModule, get_bind, state.baseModIdx ready] at ran ⊢
  cases found : s.baseModIdx around flag node with
  | none =>
      rw [found] at ran
      exact ran
  | some index =>
      rw [found] at ran same
      rw [← same rfl]
      exact ran

theorem load_node_other {setup : KernelSetup} {first : Bool} {offsets other : NodeOffsets}
    {answer : Option BootNode} {present : Bool}
    (isKernel : setup.kernel.image = (kernel, kernelOffset))
    (state : Loaded around s mid images (patched kernelOffset) loaded v)
    (ready : ReadyToLoad around s mid images) (isLoaded : (kernel, kernelOffset) ∈ loaded)
    (sets : SetsUpKernel around s kernel patched)
    (kips : ∀ hdr, s.kipHdr around kernel = some hdr → KipSection around s kernel patched hdr)
    (fits : (s.module kernel).start + (s.module kernel).size ≤ W.modulus)
    (search : s.KipSearch around kernel node present) (isFirst : first = true → present = true)
    (reserved : present = true → NodeReserved around s images node offsets)
    (same : SameOffsets around s kernel (node, offsets) (node, other))
    (ran : loadNode around setup first node offsets v = .ok answer w) :
    loadNode around setup first node other v = .ok answer w := by
  have sameIndex : setup.kernel.index = kernel := congrArg Prod.fst isKernel
  have sameOffset : setup.kernel.offset = kernelOffset := congrArg Prod.snd isKernel
  rw [loadNode, CheckedState.bind_ok_iff] at ran ⊢
  obtain ⟨found, u, isFound, ran⟩ := ran
  refine ⟨found, u, isFound, ?_⟩
  obtain ⟨rfl, isPresent⟩ :=
    node_kip isKernel state ready isLoaded kips fits search isFirst isFound
  cases found with
  | none => exact ran
  | some l4i =>
      have inFile : s.kipPresent around kernel node = true := by
        rw [search.present, ← isPresent]
        rfl
      simp only [CheckedState.bind_ok_iff] at ran ⊢
      obtain ⟨_, configured, ranConfigure, sigma0, afterSigma0, ranSigma0, roottask, afterRoottask,
        ranRoottask, completed⟩ := ran
      have ranHere := ranConfigure
      rw [sameOffset] at ranHere
      have start := state.patch isLoaded (sets.inside kernelOffset) (sets.configure _ _ _) ranHere
      obtain ⟨_, second⟩ := load_module start ready (reserved isPresent.symm).sigma0 ranSigma0
      exact ⟨_, configured, ranConfigure, sigma0, afterSigma0,
        load_module_other start ready (same.sigma0 inFile) ranSigma0, roottask, afterRoottask,
        load_module_other second ready (same.roottask inFile) ranRoottask, completed⟩

theorem load_nodes_other {setup : KernelSetup} {first : Bool}
    {nodes others : List (Nat × NodeOffsets)} {answer : List BootNode}
    (isKernel : setup.kernel.image = (kernel, kernelOffset))
    (state : Loaded around s mid images (patched kernelOffset) loaded v)
    (ready : ReadyToLoad around s mid images) (isLoaded : (kernel, kernelOffset) ∈ loaded)
    (sets : SetsUpKernel around s kernel patched)
    (kips : ∀ hdr, s.kipHdr around kernel = some hdr → KipSection around s kernel patched hdr)
    (fits : (s.module kernel).start + (s.module kernel).size ≤ W.modulus)
    (reserved : ∀ n ∈ nodes, ∃ present, s.KipSearch around kernel n.1 present ∧
      (present = true → NodeReserved around s images n.1 n.2))
    (isFirst : first = true → ∀ n rest, nodes = n :: rest → s.kipPresent around kernel n.1 = true)
    (same : List.Forall₂ (SameOffsets around s kernel) nodes others)
    (ran : loadNodes around setup first nodes v = .ok answer w) :
    loadNodes around setup first others v = .ok answer w := by
  induction same generalizing loaded v answer first with
  | nil => exact ran
  | @cons n other rest otherRest here later ih =>
      obtain ⟨node, offsets⟩ := n
      obtain ⟨otherNode, otherOffsets⟩ := other
      have sameNode : node = otherNode := here.node
      subst sameNode
      simp only [loadNodes, CheckedState.bind_ok_iff] at ran ⊢
      obtain ⟨boot, u, ranNode, booted, last, ranRest, isAnswer⟩ := ran
      obtain ⟨rfl, rfl⟩ := pure_ok_iff.mp isAnswer
      obtain ⟨present, search, nodeReserved⟩ := reserved (node, offsets) (by simp)
      simp only at search nodeReserved
      have found : first = true → present = true :=
        fun isTrue => search.present ▸ isFirst isTrue _ _ rfl
      have next := (load_node isKernel state ready isLoaded sets kips fits search found nodeReserved
        ranNode).2
      have otherNode := load_node_other isKernel state ready isLoaded sets kips fits search found
        nodeReserved here ranNode
      have otherLater := ih next (List.mem_append_left _ isLoaded)
        (fun other member => reserved other (List.mem_cons_of_mem _ member))
        (fun isTrue : false = true => Bool.noConfusion isTrue) ranRest
      exact ⟨boot, u, otherNode, booted, _, otherLater, rfl⟩

theorem load_images_other {mbi : BootInfo} {nodes others : List (Nat × NodeOffsets)}
    {booting : Booting} (prepared : Prepared around s mid images kernel kernelOffset nodes)
    (sets : SetsUpKernel around s kernel patched)
    (kips : ∀ hdr, s.kipHdr around kernel = some hdr → KipSection around s kernel patched hdr)
    (same : List.Forall₂ (SameOffsets around s kernel) nodes others)
    (ran : loadImages around kernel kernelOffset mbi nodes mid = .ok booting w) :
    loadImages around kernel kernelOffset mbi others mid = .ok booting w := by
  obtain ⟨v, kernelLoaded, isImage, _, _, present, ranNodes, front⟩ := load_images_steps
    prepared.ready prepared.member kips prepared.fits prepared.reserved
    (fun n rest => prepared.first) ran
  apply front
  apply load_nodes_other _ kernelLoaded prepared.ready (by simp) sets kips prepared.fits
    prepared.reserved (fun _ => present) same ranNodes
  rw [isImage]
  rfl

end

/-! ## The whole run -/

end L4Bootstrap
