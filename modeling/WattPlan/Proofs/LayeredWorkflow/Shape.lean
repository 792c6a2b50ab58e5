import WattPlan.Proofs.Binary64.Draws
import WattPlan.Proofs.LayeredWorkflow.Draws
import WattPlan.Proofs.Workflow.Layers
import WattPlan.Proofs.WorkflowFile.Resolution

/-!
# The shape of a random workflow

The names of the jobs of a random workflow tell their places, so no two jobs share one, and the
layers of the jobs are ranks of the draft that the file stands for. Hence the file is accepted, and
the depths of the jobs are their layers (`Admitted.layered`).
-/

namespace WattPlan.LayeredWorkflow

open Draw WorkflowFile

variable {α : Type}

open Classical in
/-- The layer that a name tells. -/
noncomputable def layerOf (name : String) : Nat :=
  if h : ∃ layer place, name = jobName layer place then h.choose else 0

/-- The name of a job tells its layer. -/
theorem layerOf_jobName (layer place : Nat) : layerOf (jobName layer place) = layer := by
  have hsome : ∃ other otherPlace, jobName layer place = jobName other otherPlace :=
    ⟨layer, place, rfl⟩
  obtain ⟨otherPlace, hname⟩ := hsome.choose_spec
  rw [layerOf, dif_pos hsome]
  exact (jobName_inj hname).1.symm

namespace Shape

variable [Scalar α] {shape : Shape α} {first : Nat} {layers : List (List (JobEntry α))}
  {entry : JobEntry α}

namespace Layered

/-- The names of the jobs of a layer. -/
theorem names (h : shape.Layered 0 [] layers) {layer : Nat} {jobs : List (JobEntry α)}
    (hlayer : layers[layer]? = some jobs) :
    jobs.map JobEntry.name = (List.range jobs.length).map (jobName layer) := by
  apply List.ext_getElem (by simp)
  intro place hplace _
  rw [List.length_map] at hplace
  obtain ⟨upper, -, hjob⟩ := h.job hlayer (List.getElem?_eq_getElem hplace)
  simp [hjob.name]

/-- No two jobs of a layer share a name. -/
theorem names_nodup_of_layer (h : shape.Layered 0 [] layers) {layer : Nat}
    {jobs : List (JobEntry α)} (hlayer : layers[layer]? = some jobs) :
    (jobs.map JobEntry.name).Nodup := by
  rw [h.names hlayer]
  exact List.nodup_range.map fun a b hsame => (jobName_inj hsame).2

/-- No two jobs of the layers share a name. -/
theorem names_nodup (h : shape.Layered 0 [] layers) :
    (layers.flatten.map JobEntry.name).Nodup := by
  rw [List.map_flatten, List.nodup_flatten]
  constructor
  · intro names hnames
    obtain ⟨jobs, hjobs, rfl⟩ := List.mem_map.1 hnames
    obtain ⟨layer, hlayer⟩ := List.mem_iff_getElem?.1 hjobs
    exact h.names_nodup_of_layer hlayer
  · rw [List.pairwise_map, List.pairwise_iff_getElem]
    intro i j hi hj hlt name hname hother
    rw [h.names (List.getElem?_eq_getElem hi)] at hname
    rw [h.names (List.getElem?_eq_getElem hj)] at hother
    obtain ⟨place, -, rfl⟩ := List.mem_map.1 hname
    obtain ⟨otherPlace, -, hsame⟩ := List.mem_map.1 hother
    have heq := (jobName_inj hsame).1
    omega

/-- Every job of the layers stands at some place of a layer, below jobs of the layer above: none at
the first layer, and some at the others. -/
theorem isJob (h : shape.Layered 0 [] layers) (hentry : entry ∈ layers.flatten) :
    ∃ layer place above, shape.IsJob layer place above entry ∧ (above = [] ↔ layer = 0) ∧
      (above.map JobEntry.name).Nodup ∧
      ∀ upper ∈ above, upper ∈ layers.flatten ∧ layerOf upper.name + 1 = layer := by
  obtain ⟨jobs, hjobs, hmem⟩ := List.mem_flatten.1 hentry
  obtain ⟨layer, hlayer⟩ := List.mem_iff_getElem?.1 hjobs
  obtain ⟨place, hplace⟩ := List.mem_iff_getElem?.1 hmem
  obtain ⟨above, habove, hjob⟩ := h.job hlayer hplace
  rw [Nat.zero_add] at hjob
  refine ⟨layer, place, above, hjob, ?_⟩
  cases layer with
  | zero =>
      obtain rfl : [] = above := by simpa using habove
      simp
  | succ layer =>
      rw [List.getElem?_cons_succ] at habove
      have hmem := List.mem_of_getElem? habove
      have hsome : above ≠ [] := fun heq => by
        have hwidth := (h.width above hmem).1
        simp [heq] at hwidth
      refine ⟨by simpa using hsome, h.names_nodup_of_layer habove, fun upper hupper => ?_⟩
      obtain ⟨upperPlace, hget⟩ := List.mem_iff_getElem?.1 hupper
      obtain ⟨_, _, hupperJob⟩ := h.job habove hget
      refine ⟨List.mem_flatten.2 ⟨above, hmem, hupper⟩, ?_⟩
      rw [hupperJob.name, layerOf_jobName, Nat.zero_add]

/-- A job of the layers writes one file, whose name is its own and whose size is one of the shape. -/
theorem output (h : shape.Layered 0 [] layers) (hentry : entry ∈ layers.flatten) :
    ∃ size, shape.IsSize size ∧ entry.outputs = [⟨entry.name ++ ".out", size, none⟩] := by
  obtain ⟨_, _, _, hjob, -⟩ := h.isJob hentry
  exact hjob.output

/-- Inputs have sizes of the shape, and lie nowhere or at the node of the inputs. -/
theorem inputs (h : shape.Layered 0 [] layers) {entry : JobEntry α} (hentry : entry ∈ layers.flatten)
    {input : ArtifactEntry α} (hinput : input ∈ entry.inputs) :
    shape.IsSize input.size ∧ (input.location = none ∨ input.location = shape.inputNode) := by
  obtain ⟨layer, place, above, hjob, -, -, habove⟩ := h.isJob hentry
  obtain ⟨parents, staged, hsub, -, -, hinputs, hfirst, hlater⟩ := hjob.inputs
  rw [hinputs, List.mem_append] at hinput
  rcases hinput with hread | hstaged
  · obtain ⟨upper, hupper, hmem⟩ := List.mem_flatMap.1 hread
    obtain ⟨size, hsize, houtput⟩ := h.output (habove upper (hsub.subset hupper)).1
    rw [houtput] at hmem
    obtain rfl := List.mem_singleton.1 hmem
    exact ⟨hsize, .inl rfl⟩
  · by_cases hzero : layer = 0
    · obtain ⟨size, hsize, rfl⟩ := hfirst hzero
      obtain rfl := List.mem_singleton.1 hstaged
      exact ⟨hsize, .inr rfl⟩
    · rw [hlater hzero] at hstaged
      cases hstaged

/-- The lengths and the sizes in the file of layers are within the bounds. -/
theorem bounds (h : shape.Layered 0 [] layers) : shape.Bounds (shape.fileOf layers) := by
  intro entry hentry
  obtain ⟨layer, place, above, hjob, -⟩ := h.isJob hentry
  refine ⟨hjob.length, fun artifact hartifact => ?_⟩
  rcases List.mem_append.1 hartifact with hinput | houtput
  · exact (h.inputs hentry hinput).1
  · obtain ⟨size, hsize, houtputs⟩ := h.output hentry
    rw [houtputs] at houtput
    obtain rfl := List.mem_singleton.1 houtput
    exact hsize

variable {catalog : Catalog α}

/-- The file of layers is well-formed where the node of its inputs is known. -/
theorem wellFormed (h : shape.Layered 0 [] layers)
    (hnode : ∀ name ∈ shape.inputNode, (catalog.nodeNamed? name).isSome) :
    (shape.fileOf layers).WellFormed catalog := by
  refine ⟨h.names_nodup, fun entry hentry => ?_⟩
  obtain ⟨hlength, hsizes⟩ := h.bounds entry hentry
  obtain ⟨layer, place, above, hjob, -, -, habove⟩ := h.isJob hentry
  constructor
  case length => exact hlength.1
  case parents =>
    obtain ⟨parents, staged, hsub, -, hparents, -⟩ := hjob.inputs
    intro name hname
    rw [hparents] at hname
    obtain ⟨upper, hupper, rfl⟩ := List.mem_map.1 hname
    exact List.mem_map_of_mem (habove upper (hsub.subset hupper)).1
  case located =>
    intro input hinput name hname
    rcases (h.inputs hentry hinput).2 with hnone | hplace
    · rw [hnone] at hname
      cases hname
    · rw [hplace] at hname
      exact hnode name hname
  case sizes => exact fun artifact hartifact => (hsizes artifact hartifact).1

/-- The layer of the job of a number. -/
noncomputable def rank (layers : List (List (JobEntry α))) (id : JobId) : Nat :=
  ((layers.flatten[id]?).map fun entry => layerOf entry.name).getD 0

/-- The layers of jobs are ranks of the draft that their file stands for. -/
theorem ranked (h : shape.Layered 0 [] layers) (catalog : Catalog α) (defaultId : WorkflowId) :
    Ranked ((shape.fileOf layers).draftOf defaultId catalog).parentsOf
      ((shape.fileOf layers).draftOf defaultId catalog).jobIds (rank layers) := by
  have hmem : ∀ {id}, id ∈ ((shape.fileOf layers).draftOf defaultId catalog).jobIds ↔
      id < layers.flatten.length := by
    intro id
    simp only [WorkflowDraft.jobIds, draftOf, fileOf, List.mem_range, List.length_map]
  constructor
  · intro id hid parent hparent
    have hentry := List.getElem?_eq_getElem (hmem.1 hid)
    obtain ⟨upper, hupper, hname⟩ := (mem_parentsOf h.names_nodup hentry).1 hparent
    obtain ⟨layer, place, above, hjob, -, -, habove⟩ := h.isJob (List.getElem_mem (hmem.1 hid))
    obtain ⟨parents, staged, hsub, -, hparents, -⟩ := hjob.inputs
    rw [hparents] at hname
    obtain ⟨other, hother, hsame⟩ := List.mem_map.1 hname
    have hlayer := (habove other (hsub.subset hother)).2
    have hget : layers.flatten[parent]? = some upper := hupper
    refine ⟨hmem.2 (List.getElem?_eq_some_iff.1 hget).1, ?_⟩
    simp only [rank, hget, hentry, Option.map_some, Option.getD_some, hjob.name, layerOf_jobName]
    rw [← hsame]
    omega
  · intro id hid hpos
    have hentry := List.getElem?_eq_getElem (hmem.1 hid)
    obtain ⟨layer, place, above, hjob, hempty, -, habove⟩ :=
      h.isJob (List.getElem_mem (hmem.1 hid))
    obtain ⟨parents, staged, hsub, hsome, hparents, -⟩ := hjob.inputs
    have hrank : rank layers id = layer := by
      simp [rank, hentry, hjob.name, layerOf_jobName]
    have hne : above ≠ [] := fun heq => by
      have hzero := hempty.1 heq
      omega
    -- Any of the chosen jobs is a parent, and its layer is the one right above.
    obtain ⟨upper, hupper⟩ := List.exists_mem_of_ne_nil _ (hsome hne)
    obtain ⟨hflat, hlayer⟩ := habove upper (hsub.subset hupper)
    obtain ⟨parent, hparent⟩ := List.mem_iff_getElem?.1 hflat
    refine ⟨parent, (mem_parentsOf h.names_nodup hentry).2 ⟨upper, hparent, ?_⟩, ?_⟩
    · rw [hparents]
      exact List.mem_map_of_mem hupper
    · have hparentRank : rank layers parent = layerOf upper.name := by
        simp [rank, hparent]
      omega

end Layered

/-- The jobs of a workflow are those of layers, at the depths that their names tell. -/
structure Holds (catalog : Catalog α) (layers : List (List (JobEntry α))) (workflow : Workflow α) :
    Prop where
  length : workflow.jobs.length = layers.flatten.length
  job : ∀ {id job}, workflow.job? id = some job → ∃ entry, layers.flatten[id]? = some entry ∧
    Describes catalog layers.flatten entry job ∧ job.depth = layerOf entry.name

section Holding

variable {catalog : Catalog α} {workflow : Workflow α} {job : Job α}

omit [Scalar α] in
/-- Every job of the layers is one of the workflow. -/
theorem Holds.found (h : Holds catalog layers workflow) {id : JobId}
    (hentry : layers.flatten[id]? = some entry) : ∃ job, workflow.job? id = some job ∧
      Describes catalog layers.flatten entry job ∧ job.depth = layerOf entry.name := by
  have hlt : id < workflow.jobs.length := by
    rw [h.length]
    exact (List.getElem?_eq_some_iff.1 hentry).1
  obtain ⟨job, hjob⟩ := Workflow.job?_isSome hlt
  obtain ⟨other, hother, hdescribed⟩ := h.job hjob
  obtain rfl : other = entry := Option.some.inj (hother.symm.trans hentry)
  exact ⟨job, hjob, hdescribed⟩

/-- Every job of the workflow stands at some place of the layer that is its depth. -/
theorem Holds.isJob (h : Holds catalog layers workflow) (hlayers : shape.Layered 0 [] layers)
    (hjob : job ∈ workflow.jobs) : ∃ entry place above, shape.IsJob job.depth place above entry ∧
      Describes catalog layers.flatten entry job ∧ (above = [] ↔ job.depth = 0) ∧
      (above.map JobEntry.name).Nodup ∧
      ∀ upper ∈ above, upper ∈ layers.flatten ∧ layerOf upper.name + 1 = job.depth := by
  obtain ⟨id, hid⟩ := List.mem_iff_getElem?.1 hjob
  obtain ⟨entry, hentry, hdescribed, hdepth⟩ := h.job hid
  obtain ⟨layer, place, above, hisJob, hrest⟩ := hlayers.isJob (List.mem_of_getElem? hentry)
  rw [hisJob.name, layerOf_jobName] at hdepth
  subst hdepth
  exact ⟨entry, place, above, hisJob, hdescribed, hrest⟩

/-- The file of layers is accepted where the node of its inputs is known, and its workflow holds the
jobs of the layers. -/
theorem Layered.exists_holds (h : shape.Layered 0 [] layers)
    (hnode : ∀ name ∈ shape.inputNode, (catalog.nodeNamed? name).isSome)
    (defaultId : WorkflowId) :
    ∃ workflow, (shape.fileOf layers).toWorkflow defaultId catalog = .ok workflow ∧
      Holds catalog layers workflow := by
  obtain ⟨workflow, hbuild, hdepth⟩ := WorkflowDraft.build_of_ranked (h.ranked catalog defaultId)
  obtain ⟨hlength, hdescribes⟩ := describes_of_build h.names_nodup hbuild
  refine ⟨workflow, ?_, hlength, fun {id job} hid => ?_⟩
  · rw [toWorkflow_of_wellFormed (h.wellFormed hnode), hbuild]
    rfl
  · obtain ⟨entry, hentry, hdescribed⟩ := hdescribes id job hid
    have hget : layers.flatten[id]? = some entry := hentry
    exact ⟨entry, hget, hdescribed, by simp [hdepth id job hid, Layered.rank, hget]⟩

end Holding

/-- A job without parents, which reads one file of its own. -/
structure IsFirst (job : Job α) : Prop where
  parents : job.parents = []
  above : job.parentInputs = []
  stored : ∃ input, job.storedInputs = [input]

/-- A job that reads what its parents write and nothing else. The parents have the depth above, and
each of them writes one file, which is read once. -/
structure IsBelow (workflow : Workflow α) (job : Job α) : Prop where
  parents : job.parents ≠ []
  nodup : job.parents.Nodup
  stored : job.storedInputs = []
  above : ∀ id ∈ job.parents, ∃ parent, workflow.job? id = some parent ∧
    parent.depth + 1 = job.depth ∧
    ∃ output, parent.outputs = [output] ∧ job.dataFrom parent = output.size

/-- A workflow of a shape: it has as many depths as the shape has layers, the names of its jobs tell
their places, and each job but those of the first layer reads what its parents write. -/
structure IsShapeOf (shape : Shape α) (workflow : Workflow α) : Prop where
  depths : workflow.maxDepth + 1 = shape.layers
  places : ∃ widths : List Nat, widths.length = shape.layers ∧
    (∀ width ∈ widths, 1 ≤ width ∧ width ≤ shape.width) ∧
    workflow.jobs.map (fun job => (job.depth, job.name)) =
      widths.zipIdx.flatMap fun (width, layer) =>
        (List.range width).map fun place => (layer, jobName layer place)
  first : ∀ job ∈ workflow.jobs, job.depth = 0 → IsFirst job
  below : ∀ job ∈ workflow.jobs, 0 < job.depth → IsBelow workflow job

omit [Scalar α] in
/-- Of the files that jobs write, those with the name of the file of one job are its own. -/
theorem filter_outputs {parents : List (JobEntry α)} (hnames : (parents.map JobEntry.name).Nodup)
    (houtputs : ∀ parent ∈ parents, ∃ size, parent.outputs = [⟨parent.name ++ ".out", size, none⟩])
    {upper : JobEntry α} (hupper : upper ∈ parents) :
    (parents.flatMap JobEntry.outputs).filter (fun output => output.name = upper.name ++ ".out") =
      upper.outputs := by
  induction parents with
  | nil => cases hupper
  | cons parent rest ih =>
      rw [List.forall_mem_cons] at houtputs
      rw [List.map_cons, List.nodup_cons] at hnames
      obtain ⟨size, houtput⟩ := houtputs.1
      rw [List.flatMap_cons, List.filter_append]
      rcases List.mem_cons.1 hupper with rfl | hupper
      · have hrest : (rest.flatMap JobEntry.outputs).filter
            (fun output => output.name = upper.name ++ ".out") = [] := by
          rw [List.filter_eq_nil_iff]
          intro output hmem hname
          obtain ⟨other, hother, hwritten⟩ := List.mem_flatMap.1 hmem
          obtain ⟨otherSize, hsame⟩ := houtputs.2 other hother
          rw [hsame, List.mem_singleton] at hwritten
          have heq : other.name = upper.name := by simpa [hwritten] using hname
          exact hnames.1 (heq ▸ List.mem_map_of_mem hother)
        rw [hrest]
        simp [houtput]
      · have hne : parent.name ≠ upper.name := fun heq =>
          hnames.1 (heq ▸ List.mem_map_of_mem hupper)
        rw [ih hnames.2 houtputs.2 hupper]
        simp [houtput, hne]

/-- A job of the first layer has no parents, and the one file that it reads is its own. -/
theorem isFirst_of_describes {catalog : Catalog α} {place : Nat} {job : Job α}
    (hjob : shape.IsJob 0 place [] entry)
    (hdescribes : Describes catalog layers.flatten entry job) : IsFirst job := by
  obtain ⟨parents, staged, hsub, -, hparents, hinputs, hfirst, -⟩ := hjob.inputs
  obtain ⟨size, -, rfl⟩ := hfirst rfl
  obtain rfl := List.sublist_nil.1 hsub
  have hnone : ∀ name, isWrittenAbove layers.flatten entry name = false := by
    simp [isWrittenAbove, hparents]
  constructor
  case parents =>
    rw [List.eq_nil_iff_forall_not_mem]
    intro id hid
    obtain ⟨upper, -, hname⟩ := (hdescribes.parents id).1 hid
    simp [hparents] at hname
  case above =>
    rw [hdescribes.above, List.filter_eq_nil_iff]
    simp [hnone]
  case stored =>
    rw [hdescribes.stored, List.filter_eq_self.2 (by simp [hnone]), hinputs]
    exact ⟨_, rfl⟩

section Below

variable {catalog : Catalog α} {workflow : Workflow α} {parents : List (JobEntry α)} {job : Job α}

omit [Scalar α] in
/-- A job that reads just what its parents write has no other inputs. -/
theorem inputs_of_describes (hknown : ∀ upper ∈ parents, upper ∈ layers.flatten)
    (hparents : entry.parents = parents.map JobEntry.name)
    (hinputs : entry.inputs = parents.flatMap JobEntry.outputs)
    (hdescribes : Describes catalog layers.flatten entry job) : job.storedInputs = [] ∧
      job.parentInputs = (parents.flatMap JobEntry.outputs).map (located catalog) := by
  have hwritten : ∀ input ∈ entry.inputs.map (located catalog),
      isWrittenAbove layers.flatten entry input.name = true := by
    intro input hinput
    obtain ⟨output, houtput, rfl⟩ := List.mem_map.1 hinput
    rw [hinputs] at houtput
    obtain ⟨upper, hupper, hmem⟩ := List.mem_flatMap.1 houtput
    simp only [isWrittenAbove, List.any_eq_true, Bool.and_eq_true, List.contains_iff_mem]
    refine ⟨upper, hknown upper hupper, ?_, output, hmem, by simp [located]⟩
    rw [hparents]
    exact List.mem_map_of_mem hupper
  constructor
  · rw [hdescribes.stored, List.filter_eq_nil_iff]
    intro input hinput
    simp [hwritten input hinput]
  · rw [hdescribes.above, List.filter_eq_self.2 hwritten, hinputs]

/-- What a job reads from a parent is the one file that the parent writes. -/
theorem dataFrom_eq [Scalar.LawfulDraws α] {parent : Job α} {upper : JobEntry α} {size : α}
    (hnames : (parents.map JobEntry.name).Nodup)
    (houtputs : ∀ parent ∈ parents, ∃ size, parent.outputs = [⟨parent.name ++ ".out", size, none⟩])
    (hread : job.parentInputs = (parents.flatMap JobEntry.outputs).map (located catalog))
    (hupper : upper ∈ parents) (houtput : upper.outputs = [⟨upper.name ++ ".out", size, none⟩])
    (hparent : parent.outputs = upper.outputs.map written) (hsize : shape.IsSize size) :
    job.dataFrom parent = size := by
  have hmatch : (job.parentInputs.filter fun input =>
      parent.outputs.any fun output => output.name = input.name) =
        upper.outputs.map (located catalog) := by
    rw [hread, List.filter_map, ← filter_outputs hnames houtputs hupper]
    refine congrArg _ (List.filter_congr fun output _ => ?_)
    simp only [Function.comp, hparent, houtput, written, located, List.map_cons, List.map_nil,
      List.any_cons, List.any_nil, Bool.or_false]
    exact decide_eq_decide.2 eq_comm
  rw [Job.dataFrom, hmatch, houtput]
  exact Scalar.LawfulDraws.neg_zero_add hsize.1

/-- A job below the first layer reads what its parents write. -/
theorem Layered.isBelow (h : shape.Layered 0 [] layers) [Scalar.LawfulDraws α]
    (hholds : Holds catalog layers workflow) (hjob : job ∈ workflow.jobs) (hpos : 0 < job.depth) :
    IsBelow workflow job := by
  obtain ⟨entry, place, above, hisJob, hdescribes, hempty, hnames, habove⟩ := hholds.isJob h hjob
  obtain ⟨parents, staged, hsub, hchosen, hparents, hinputs, -, hlater⟩ := hisJob.inputs
  have hsome : above ≠ [] := fun heq => hpos.ne' (hempty.1 heq)
  have hknown : ∀ upper ∈ parents, upper ∈ layers.flatten := fun upper hupper =>
    (habove upper (hsub.subset hupper)).1
  rw [hlater hpos.ne', List.append_nil] at hinputs
  obtain ⟨hstored, hread⟩ := inputs_of_describes hknown hparents hinputs hdescribes
  constructor
  case parents =>
    obtain ⟨upper, hupper⟩ := List.exists_mem_of_ne_nil _ (hchosen hsome)
    obtain ⟨id, hid⟩ := List.mem_iff_getElem?.1 (hknown upper hupper)
    refine List.ne_nil_of_mem ((hdescribes.parents id).2 ⟨upper, hid, ?_⟩)
    rw [hparents]
    exact List.mem_map_of_mem hupper
  case nodup => exact hdescribes.nodup
  case stored => exact hstored
  case above =>
    intro id hid
    -- A parent of the job is found by the name of one of the chosen jobs, so it is this one.
    obtain ⟨upper, hget, hname⟩ := (hdescribes.parents id).1 hid
    rw [hparents] at hname
    obtain ⟨other, hupper, hsame⟩ := List.mem_map.1 hname
    obtain rfl := List.inj_on_of_nodup_map h.names_nodup (hknown other hupper)
      (List.mem_of_getElem? hget) hsame
    obtain ⟨parent, hparent, hparentDescribes, hdepth⟩ := hholds.found hget
    obtain ⟨size, hsize, houtput⟩ := h.output (hknown other hupper)
    refine ⟨parent, hparent, ?_, written ⟨other.name ++ ".out", size, none⟩, ?_, ?_⟩
    · rw [hdepth, (habove other (hsub.subset hupper)).2]
    · rw [hparentDescribes.outputs, houtput]
      rfl
    · refine dataFrom_eq ((hsub.map JobEntry.name).nodup hnames) (fun parent hmem => ?_) hread
        hupper houtput hparentDescribes.outputs hsize
      exact (h.output (hknown parent hmem)).imp fun _ hboth => hboth.2

end Below

/-- The depths and the names of the jobs of a workflow tell their places in the layers. -/
theorem Layered.places (h : shape.Layered 0 [] layers) {catalog : Catalog α} {workflow : Workflow α}
    (hholds : Holds catalog layers workflow) :
    workflow.jobs.map (fun job => (job.depth, job.name)) =
      (layers.map List.length).zipIdx.flatMap fun (width, layer) =>
        (List.range width).map fun place => (layer, jobName layer place) := by
  have hentries : workflow.jobs.map (fun job => (job.depth, job.name)) =
      layers.flatten.map fun entry => (layerOf entry.name, entry.name) := by
    apply List.ext_getElem (by rw [List.length_map, List.length_map, hholds.length])
    intro id hid _
    rw [List.length_map] at hid
    obtain ⟨entry, hentry, hdescribed, hdepth⟩ := hholds.job (List.getElem?_eq_getElem hid)
    obtain ⟨hlt, rfl⟩ := List.getElem?_eq_some_iff.1 hentry
    simp only [List.getElem_map, hdescribed.name, hdepth]
  have hlayers : layers.map (List.map fun entry : JobEntry α => (layerOf entry.name, entry.name)) =
      ((layers.map List.length).zipIdx.map fun (width, layer) =>
        (List.range width).map fun place => (layer, jobName layer place)) := by
    apply List.ext_getElem (by simp)
    intro layer hlayer _
    rw [List.length_map] at hlayer
    have hnames := congrArg (List.map fun name => (layerOf name, name))
      (h.names (List.getElem?_eq_getElem hlayer))
    simpa [Function.comp_def, layerOf_jobName] using hnames
  rw [hentries, List.map_flatten, hlayers]
  rfl

omit [Scalar α] in
/-- Jobs at the places of layers of the given widths have as many depths as there are layers. -/
theorem maxDepth_of_places {workflow : Workflow α} {widths : List Nat} (hpos : 0 < widths.length)
    (hwidths : ∀ width ∈ widths, 1 ≤ width)
    (hplaces : workflow.jobs.map (fun job => (job.depth, job.name)) =
      widths.zipIdx.flatMap fun (width, layer) =>
        (List.range width).map fun place => (layer, jobName layer place)) :
    workflow.maxDepth + 1 = widths.length := by
  have hmem : ∀ depth, (∃ job ∈ workflow.jobs, job.depth = depth) ↔ depth < widths.length := by
    intro depth
    have hpairs : (∃ job ∈ workflow.jobs, job.depth = depth) ↔
        ∃ name, (depth, name) ∈ workflow.jobs.map fun job => (job.depth, job.name) := by
      simp
    rw [hpairs, hplaces]
    simp only [List.mem_flatMap, List.mem_map, List.mem_range, Prod.exists, Prod.mk.injEq,
      List.mk_mem_zipIdx_iff_getElem?]
    constructor
    · rintro ⟨name, width, layer, hlayer, place, -, rfl, -⟩
      exact (List.getElem?_eq_some_iff.1 hlayer).1
    · intro hlt
      exact ⟨_, widths[depth], depth, List.getElem?_eq_getElem hlt, 0,
        hwidths _ (List.getElem_mem hlt), rfl, rfl⟩
  obtain ⟨last, hlast, hdepth⟩ := (hmem (widths.length - 1)).2 (by omega)
  have hle := Workflow.depth_le_maxDepth hlast
  have hlt : workflow.maxDepth < widths.length :=
    Workflow.maxDepth_lt hpos fun job hjob => (hmem job.depth).1 ⟨job, hjob, rfl⟩
  omega

/-- Whatever the generator is, the file of an admitted shape is accepted where the node of its inputs
is known, and gives a workflow of the shape. -/
theorem Admitted.layered [Scalar.LawfulDraws α] (h : shape.Admitted) (generator : Generator)
    {catalog : Catalog α} (hnode : ∀ name ∈ shape.inputNode, (catalog.nodeNamed? name).isSome)
    (defaultId : WorkflowId) :
    ∃ workflow, (shape.draw.run generator).1.toWorkflow defaultId catalog = .ok workflow ∧
      shape.IsShapeOf workflow := by
  obtain ⟨layers, hcount, hlayers, hfile⟩ := h.draw_yields generator
  obtain ⟨workflow, hworkflow, hholds⟩ := hlayers.exists_holds hnode defaultId
  have hplaces := hlayers.places hholds
  have hwidths : ∀ width ∈ layers.map List.length, 1 ≤ width ∧ width ≤ shape.width := by
    intro width hwidth
    obtain ⟨jobs, hjobs, rfl⟩ := List.mem_map.1 hwidth
    exact hlayers.width jobs hjobs
  have hlength : (layers.map List.length).length = shape.layers := by
    rw [List.length_map, hcount]
  refine ⟨workflow, hfile ▸ hworkflow, ?_⟩
  constructor
  case depths =>
    rw [← hlength]
    exact maxDepth_of_places (hlength ▸ h.counts.1) (fun width hwidth =>
      (hwidths width hwidth).1) hplaces
  case places => exact ⟨layers.map List.length, hlength, hwidths, hplaces⟩
  case first =>
    intro job hjob hzero
    obtain ⟨entry, place, above, hisJob, hdescribes, hempty, -⟩ := hholds.isJob hlayers hjob
    rw [hempty.2 hzero, hzero] at hisJob
    exact isFirst_of_describes hisJob hdescribes
  case below => exact fun job hjob hpos => hlayers.isBelow hholds hjob hpos

end Shape

/-! Three layers of at most two jobs, whose first inputs lie on the one node of a catalog. -/

namespace Narrow

def shape : Shape Float where
  name := "narrow"
  id := none
  layers := 3
  width := 2
  minLength := 1
  maxLength := 2.5
  maxData := 10
  edgeProbability := 0.25
  inputNode := some "store"
  submittedAt := 0

def site : Site Float :=
  ⟨0, "north", ⟨[1], List.cons_ne_nil _ _⟩⟩

def catalog : Catalog Float where
  sites := [site]
  nodes := [⟨0, "store", site, ⟨1, 100, 0⟩, []⟩]
  network := ⟨10, 2⟩
  nonempty := List.cons_ne_nil _ _

theorem admitted : shape.Admitted :=
  ⟨by decide +kernel, by decide +kernel, by decide +kernel, by decide +kernel⟩

theorem drawn_layered : shape.Admitted ∧
    (∀ name ∈ shape.inputNode, (catalog.nodeNamed? name).isSome) ∧
    ∃ workflow, (shape.draw.run (Generator.ofSeed 7)).1.toWorkflow 1 catalog = .ok workflow ∧
      shape.IsShapeOf workflow := by
  have hnode : ∀ name ∈ shape.inputNode, (catalog.nodeNamed? name).isSome := by decide +kernel
  exact ⟨admitted, hnode, Shape.Admitted.layered admitted (Generator.ofSeed 7) hnode 1⟩

end Narrow

end WattPlan.LayeredWorkflow
