import ConfigTree.Schema.Catalog

/-!
# The catalog of an experiment

The records that describe a training experiment, and a few small ones beside them: optimizers and
metrics as families, training and data settings, and the experiment that holds both.  Everything
lives in one namespace, which is a parameter.

Each record takes its fields in the types in which its schema declares them.
-/

namespace ConfigTree.Experiment

variable (home : Namespace)

/-! ## Names -/

def base : Family := ⟨home.name, "Base", home, .single⟩

def layer : Family := ⟨home.name, "Layer", home, .multi⟩

def optimizer : Family := ⟨home.name, "Optimizer", home, .single⟩

def metric : Family := ⟨home.name, "Metric", home, .multi⟩

/-- A record type of this catalog. -/
def recordType (name : String) : RecordType := ⟨home.name, name⟩

def a : RecordType := recordType home "A"

def b : RecordType := recordType home "B"

def sgd : RecordType := recordType home "Sgd"

def adam : RecordType := recordType home "AdamConfig"

def accuracy : RecordType := recordType home "Accuracy"

def areaUnderCurve : RecordType := recordType home "AreaUnderCurveConfig"

/-- A record that holds one member of `base`. -/
def singleRoot : RecordType := recordType home "SingleRoot"

/-- A record that holds a list of members of `layer`. -/
def multiRoot : RecordType := recordType home "MultiRoot"

def train : RecordType := recordType home "TrainConfig"

def data : RecordType := recordType home "DataConfig"

def experiment : RecordType := recordType home "ExperimentConfig"

/-! ## Fields -/

/-- A field together with how it is taken. -/
structure Field where
  spec : FieldSpec
  getter : Getter

/-- A field that has to be there. -/
def required (name : String) (request : Request) (help : Option String) : Field :=
  ⟨⟨name, request.declared, true, help⟩, ⟨request, .isMissing⟩⟩

/-- A field with a default. -/
def optional (name : String) (request : Request) (default : Value) : Field :=
  ⟨⟨name, request.declared, false, none⟩, ⟨request, .holds default⟩⟩

/-- What a record type is declared with. -/
structure Plan where
  /-- Where its name can be written in front of its fields. -/
  space : Option Namespace
  fields : List Field

/-- How the fields are taken. -/
def Plan.getters (plan : Plan) : Entries String Getter :=
  plan.fields.map fun field => (field.spec.name, field.getter)

/-- The definition of a record type: its constructor takes the fields in order. -/
def Plan.define (plan : Plan) (type : RecordType) : RecordDefinition :=
  { schema := ⟨type.name, plan.space, plan.fields.map Field.spec⟩
    construct := .ofGetters plan.getters
    leaf := none }

/-- A number in decimal. -/
def number (digits : Nat) (exponent : Int) : Value :=
  .float double (double.ofDecimal false digits exponent)

def int64 : Request := .primitive (.integer .signed64)

def count : Request := .primitive (.integer .unsigned32)

def real : Request := .primitive (.float double)

/-- What all record types are declared with. -/
def plans : Entries RecordType Plan :=
  [ (a home, ⟨none, [required "x" int64 (some "First coordinate")]⟩),
    (b home, ⟨none, [required "y" int64 none]⟩),
    (sgd home, ⟨none,
      [ required "lr" real (some "Learning rate"),
        optional "momentum" real (number 0 0)]⟩),
    (adam home, ⟨none,
      [ required "lr" real (some "Learning rate"),
        optional "betas" (.primitive (.list (.float double)))
          (.list [number 9 (-1), number 999 (-3)])]⟩),
    (accuracy home, ⟨none, [required "threshold" real (some "Decision threshold")]⟩),
    (areaUnderCurve home, ⟨none, [optional "num_thresholds" count (.int 200)]⟩),
    (singleRoot home, ⟨none, [required "module" (.variant (base home)) none]⟩),
    (multiRoot home, ⟨none, [required "modules" (.variants (layer home)) none]⟩),
    (train home, ⟨some home,
      [ required "batch_size" int64 (some "Samples per step"),
        optional "epochs" count (.int 1),
        required "optimizer" (.variant (optimizer home)) (some "Optimizer settings"),
        optional "metrics" (.variants (metric home)) (.list [])]⟩),
    (data home, ⟨some home,
      [ required "paths" (.primitive (.list .str)) none,
        optional "shuffle" (.primitive .bool) (.bool true),
        optional "weights" (.primitive (.map .insertion .str (.float double))) (.map [])]⟩),
    (experiment home, ⟨some home,
      [ required "name" (.primitive .str) (some "Experiment name"),
        required "train" (.record (train home)) (some "Training loop settings"),
        required "data" (.record (data home)) none]⟩)]

/-- The registry of all families and of the records whose name can be written in front of them. -/
def registry : Registry :=
  let members := [
    (base home, a home), (base home, b home), (layer home, a home), (layer home, b home),
    (optimizer home, sgd home), (optimizer home, adam home),
    (metric home, accuracy home), (metric home, areaUnderCurve home)]
  let records := [train home, data home, experiment home]
  let registered : Registry := members.foldl (fun registry (family, type) =>
    Registry.registerVariant registry family type) []
  records.foldl (fun registry type => Registry.registerRecord registry home type) registered

/-- What a record type is declared with; one that is not in this catalog has no fields. -/
def plan (type : RecordType) : Plan :=
  (Entries.get? (plans home) type).getD ⟨none, []⟩

/-- The definition of a record type. -/
def definition (type : RecordType) : RecordDefinition := (plan home type).define type

/-- The catalog of all records. -/
def catalog : Catalog := ⟨definition home, registry home⟩

end ConfigTree.Experiment
