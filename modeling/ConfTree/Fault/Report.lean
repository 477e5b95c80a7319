import ConfTree.Fault.Basic

/-!
# Reports

How a fault is shown on a terminal: a headline with its code, then the trail it took, each part
painted if colours are wanted.
-/
namespace ConfTree.Report

/-- Paints a text with a mark before and a mark after; an empty text stays bare. -/
def paint (color : Bool) (before after t : Text) : Text :=
  if color && !t.isEmpty then .concat [before,t,after] else t

/-- Bold red. -/
def alarm (color : Bool) (t : Text) : Text :=
  paint color "\x1b[31m\x1b[1m" "\x1b[22m\x1b[39m" t

def dim (color : Bool) (t : Text) : Text := paint color "\x1b[2m" "\x1b[22m" t

/-- The headline of an error that is no fault. -/
def ofMessage (color : Bool) (message : Text) : Text :=
  .concat [alarm color "error"," ",message]

/-- A fault's headline, and below it the trail. -/
def ofFault (color : Bool) (f : Fault) : Text :=
  let headline : Text :=
    .concat [alarm color "error"," ",dim color (.concat ["[",f.cause.code,"]"])," ",f.message]
  if f.trail.isEmpty then headline
  else .concat [headline,"\n",
    dim color (.concat ["  via ",.join " <- " (f.trail.map displayAddress)])]

/-- Stands for the calls that led to an error, which are not kept. -/
def trace : Text := "<stack>"

end ConfTree.Report
