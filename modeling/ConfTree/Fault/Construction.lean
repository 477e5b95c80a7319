import ConfTree.Fault.Eval

/-!
# What can go wrong in building

One case for each way raw content, a declaration, a modifier, a setting or a unit can be unfit.
-/
namespace ConfTree

/-- Why something could not be built. -/
inductive ConstructionIssue where
  /-- the embedding program's own words -/
  | reported (message : Text)
  | invalidKey (key : Text)
  | reservedKey (key : Text)
  | invalidDeclaration (key : Text) (issue : EvalIssue)
  | repeatedName (first second name : Text)
  | unsupportedValue (type : Text)
  | duplicateKey (key : Text)
  | fixedEntry (entry : Text)
  | emittedTwice (first second key : Text)
  | declaredType (source type : Text)
  | declaredModifier (source type : Text)
  | modifierResult (modifier type : Text)
  | extendsValue (kind : Text)
  | extendsBase (base kind : Text)
  | extendsItself
  | fuseValue (kind : Text)
  | fuseKeys (unexpected : List Text)
  | fuseSource (key : Text)
  | loadedPath (unit path : Text)
  | loadedName (type : Text)
  | promotedPlace
  | promotedSiblings (keys : List Text)
  | renamedPlace
  | overrideTarget (target : Text)
  | overrideValue (target type : Text)
  | overrideInput (type : Text)
  | unitName (unit : Text)
  | noLoader (unit : Text)
  | unparsable (file : Text)
  | registeredName (name : Text)
  | boundName (name : Text)
  | settingsShape (source : Text)
  | settingType (key source kind : Text)
  | lengthVariable (value : Text)
  | outputFormat (format : Text)

namespace ConstructionIssue

/-- Stands for the sentence that says where a file stops being well formed. -/
def parseReport : Text := "<parse>"

def message : ConstructionIssue → Text
  | reported message => message
  | invalidKey key => .concat ["Invalid key '",key,"'"]
  | reservedKey key => .concat ["Key '",key,"' is not allowed"]
  | invalidDeclaration key issue => .concat ["Invalid declaration in key '",key,"': ",issue.message]
  | repeatedName first second name => .concat ["Keys '",first,"' and '",second,"' both declare '",name,"'"]
  | unsupportedValue type => .concat ["Unsupported value of type ",type]
  | duplicateKey key => .concat ["Duplicate key '",key,"'"]
  | fixedEntry entry => .concat ["Entry '",entry,"' cannot be replaced"]
  | emittedTwice first second key =>
    .concat ["Entries '",first,"' and '",second,"' are both emitted as '",key,"'"]
  | declaredType source type => .concat ["Type declaration '",source,"' contains a ",type,", not a type"]
  | declaredModifier source type =>
    .concat ["Modifier declaration '",source,"' contains a ",type,", not a modifier"]
  | modifierResult modifier type =>
    .concat ["Modifier '",modifier,"' returned a ",type," instead of a node"]
  | extendsValue kind => .concat ["extends requires a mapping value, got a ",kind]
  | extendsBase base kind => .concat ["Base '",base,"' of extends is a ",kind,", not a mapping"]
  | extendsItself => "A mapping cannot extend itself"
  | fuseValue kind => .concat ["fuse requires a mapping with a 'value' key, got a ",kind]
  | fuseKeys unexpected =>
    .concat ["fuse requires key 'value' and optionally 'types' and 'modifiers'",
      if unexpected.isEmpty then "" else .concat ["; unexpected ",.join ", " unexpected]]
  | fuseSource key => .concat ["fuse '",key,"' must be a str or a list of str"]
  | loadedPath unit path => .concat ["load vars: unit '",unit,"' has no node at '",path,"'"]
  | loadedName type => .concat ["load expects a unit name, got ",type]
  | promotedPlace => "promote applies only to mapping entries"
  | promotedSiblings keys => .concat ["promote requires a single-entry mapping, found keys ",.join ", " keys]
  | renamedPlace => "rename applies only to mapping entries"
  | overrideTarget target => .concat ["Invalid override target '",target,"'"]
  | overrideValue target type => .concat ["Override for '",target,"' is a ",type,", not native content"]
  | overrideInput type => .concat ["Overrides must be a mapping or assignment text, got ",type]
  | unitName unit => .concat ["Invalid unit name '",unit,"'"]
  | noLoader unit => .concat ["Cannot load unit '",unit,"': no unit loader configured"]
  | unparsable file => .concat ["Cannot parse ",file,": ",parseReport]
  | registeredName name => .concat ["Cannot register '",name,"': not a valid identifier"]
  | boundName name => .concat ["Name '",name,"' is already registered"]
  | settingsShape source => .concat ["Configuration in ",source," must be an object"]
  | settingType key source kind =>
    .concat ["Configuration field '",key,"' in ",source," must be of type ",kind]
  | lengthVariable value =>
    .concat ["SOLCONF_MAX_EXPRESSION_LENGTH must be a positive integer, got '",value,"'"]
  | outputFormat format => .concat ["Unknown output format '",format,"' (expected json or yaml)"]

end ConstructionIssue
end ConfTree
