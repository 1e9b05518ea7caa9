import Wms.Core.JobAdapter
import Wms.Interface.CoreOperations
import Wms.Lib.CString

/-!
# Where the output goes (`coreoperations.cpp`, `src/utilities/utils.cpp`)

`submit` writes a destination for every file of the output sandbox into the
description: the one given for it, or one made of its name and a base. The
destinations are computed first and put in one after the other, and a counter
is compared with the configured number on the way.

Of a description the three attributes are kept that this reads and writes.
`hasWildCards` is of the JDL library, and `addAttribute` puts a value behind
those that are there. What a node inherits from its DAG is looked up once for
all nodes, where a base that is missing is an empty one.
-/

namespace Wms.Interface

open Wms.Core (Text rfind)
open Wms.Lib

/-- The attributes of a job or a node. -/
structure OutputAd where
  outputSandbox : Option (List Text)
  osbDestUri : Option (List Text)
  osbBaseDestUri : Option Text
  deriving DecidableEq

/-- What `submit` computes for a single file with a base. -/
def destURIOf (baseuri path : Text) : Text :=
  match rfind ['/'] path with
  | some pos => baseuri ++ ['/'] ++ path.drop (pos + 1)
  | none => baseuri ++ ['/'] ++ path

/-- `computeOutputSBDestURIBase` -/
def computeOutputSBDestURIBase (outputsb : List Text) (baseuri : Text) :
    List Text :=
  outputsb.map (destURIOf baseuri)

/-- What stands between directories. -/
def separator : Text := ['/']

/-- The name of the directory of the output. -/
def outputSBDirectory : Text := ['o', 'u', 't', 'p', 'u', 't']

/-- A destination that is given: a URL, or a path below the output directory. -/
def givenURI (dest_uri path : Text) : Text :=
  if (breakOn [':', '/', '/'] path).isSome then path
  else dest_uri ++ separator ++ outputSBDirectory ++ separator ++ path

/-- `computeOutputSBDestURI` -/
def computeOutputSBDestURI (osbdesturi : List Text) (dest_uri : Text) :
    List Text :=
  osbdesturi.map (givenURI dest_uri)

namespace OutputAd

/-- The attribute is deleted. -/
def delDestURI (ad : OutputAd) : OutputAd := { ad with osbDestUri := none }

/-- A URI joins the attribute. -/
def addDestURI (ad : OutputAd) (uri : Text) : OutputAd :=
  { ad with osbDestUri := some (ad.osbDestUri.getD [] ++ [uri]) }

end OutputAd

/-- The loop that puts the destinations in. -/
def addDestURIs (cfg : Config) : ℕ → List Text → OutputAd → WmpProc OutputAd
  | _, [], ad => pure ad
  | counter, uri :: uris, ad =>
      if ((counter + 1 : ℕ) : ℤ) ≤ cfg.maxOutputSandboxFiles then
        addDestURIs cfg (counter + 1) uris (ad.addDestURI uri)
      else if 0 < cfg.maxOutputSandboxFiles then do
        tooManyFiles "The maximum number of output sandbox files is reached"
        addDestURIs cfg (counter + 1) uris ad
      else addDestURIs cfg (counter + 1) uris ad

/-- The directory of the output below a job's own. -/
def outputBelow (dest_uri : Text) : Text :=
  dest_uri ++ separator ++ outputSBDirectory

/-- The destinations of a job, and the description without those given. -/
def jobDestinations (dest_uri : Text) (outputsb : List Text) (jad : OutputAd) :
    List Text × OutputAd :=
  match jad.osbDestUri, jad.osbBaseDestUri with
  | some given, _ => (computeOutputSBDestURI given dest_uri, jad.delDestURI)
  | none, some base => (computeOutputSBDestURIBase outputsb base, jad)
  | none, none =>
      (computeOutputSBDestURIBase outputsb (outputBelow dest_uri), jad)

/-- The part of `submit` for a job. With wildcards only the base is set. -/
def jobOutputSandbox (cfg : Config) (hasWildCards : Text → Bool)
    (dest_uri : Text) (jad : OutputAd) : WmpProc OutputAd :=
  match jad.outputSandbox with
  | none => pure jad
  | some outputsb =>
      if outputsb.any hasWildCards then
        match jad.osbBaseDestUri with
        | some _ => pure jad
        | none => pure { jad with osbBaseDestUri := some (outputBelow dest_uri) }
      else
        let r := jobDestinations dest_uri outputsb jad
        addDestURIs cfg 0 r.1 r.2

/-- The destinations of a node. -/
def nodeDestinations (dest_uri parent_dest_uri : Text) (outputsb : List Text)
    (nodead : OutputAd) : List Text × OutputAd :=
  match nodead.osbDestUri, nodead.osbBaseDestUri with
  | some given, _ => (computeOutputSBDestURI given dest_uri, nodead.delDestURI)
  | none, some base => (computeOutputSBDestURIBase outputsb base, nodead)
  | none, none =>
      if !parent_dest_uri.isEmpty then
        (computeOutputSBDestURIBase outputsb parent_dest_uri, nodead)
      else
        (computeOutputSBDestURIBase outputsb (outputBelow dest_uri), nodead)

/-- The part of `submit` for a node, where nobody looks for wildcards. -/
def nodeOutputSandbox (cfg : Config) (dest_uri parent_dest_uri : Text)
    (nodead : OutputAd) : WmpProc OutputAd :=
  match nodead.outputSandbox with
  | none => pure nodead
  | some outputsb =>
      let r := nodeDestinations dest_uri parent_dest_uri outputsb nodead
      if r.1.length ≠ 0 then addDestURIs cfg 0 r.1 r.2 else pure r.2

/-- The loop over the nodes, each with its own destination URI. -/
def nodesOutputSandbox (cfg : Config) (parent_dest_uri : Text) :
    List (Text × OutputAd) → WmpProc (List OutputAd)
  | [] => pure []
  | (dest_uri, nodead) :: nodes => do
      let nodead ← nodeOutputSandbox cfg dest_uri parent_dest_uri nodead
      let nodes ← nodesOutputSandbox cfg parent_dest_uri nodes
      pure (nodead :: nodes)

/-- The part of `submit` for a DAG. -/
def dagOutputSandbox (cfg : Config) (dagBaseDestUri : Option Text)
    (nodes : List (Text × OutputAd)) : WmpProc (List OutputAd) :=
  nodesOutputSandbox cfg (dagBaseDestUri.getD []) nodes

end Wms.Interface
