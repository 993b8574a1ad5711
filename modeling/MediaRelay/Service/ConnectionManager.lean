import MediaRelay.Catalog.Basic
import MediaRelay.Connection.Registry
import MediaRelay.Service.Description
import MediaRelay.Service.PropertySet

/-! # The connection manager as a service

What control points are told of a registry: the description of the service, which never changes,
and the current values of its evented variables.
-/
namespace MediaRelay.ConnectionManagerService

def serviceId : String := "urn:upnp-org:serviceId:ConnectionManager"

def serviceType : String := "urn:schemas-upnp-org:service:ConnectionManager:1"

def actions : List Action :=
  [⟨"GetCurrentConnectionIDs", [⟨"ConnectionIDs", .output, "CurrentConnectionIDs"⟩]⟩,
   ⟨"GetCurrentConnectionInfo",
    [⟨"ConnectionID", .input, "A_ARG_TYPE_ConnectionID"⟩,
     ⟨"RcsID", .output, "A_ARG_TYPE_RcsID"⟩,
     ⟨"AVTransportID", .output, "A_ARG_TYPE_AVTransportID"⟩,
     ⟨"ProtocolInfo", .output, "A_ARG_TYPE_ProtocolInfo"⟩,
     ⟨"PeerConnectionManager", .output, "A_ARG_TYPE_ConnectionManager"⟩,
     ⟨"PeerConnectionID", .output, "A_ARG_TYPE_ConnectionID"⟩,
     ⟨"Direction", .output, "A_ARG_TYPE_Direction"⟩,
     ⟨"Status", .output, "A_ARG_TYPE_ConnectionStatus"⟩]⟩,
   ⟨"GetProtocolInfo",
    [⟨"Source", .output, "SourceProtocolInfo"⟩, ⟨"Sink", .output, "SinkProtocolInfo"⟩]⟩]

def stateVariables : List StateVariable :=
  [⟨"SourceProtocolInfo", "string", true, []⟩,
   ⟨"SinkProtocolInfo", "string", true, []⟩,
   ⟨"CurrentConnectionIDs", "string", true, []⟩,
   ⟨"A_ARG_TYPE_ConnectionStatus", "string", false, Status.all.map Status.render⟩,
   ⟨"A_ARG_TYPE_ConnectionManager", "string", false, []⟩,
   ⟨"A_ARG_TYPE_Direction", "string", false, Direction.all.map Direction.render⟩,
   ⟨"A_ARG_TYPE_ProtocolInfo", "string", false, []⟩,
   ⟨"A_ARG_TYPE_ConnectionID", "i4", false, []⟩,
   ⟨"A_ARG_TYPE_AVTransportID", "i4", false, []⟩,
   ⟨"A_ARG_TYPE_RcsID", "i4", false, []⟩]

def description : ServiceDescription := ⟨actions, stateVariables⟩

def evented (c : Catalog) (r : Registry) : PropertySet :=
  ((PropertySet.empty.add "SourceProtocolInfo" c.sourceInfo).add "SinkProtocolInfo" c.sinkInfo).add
    "CurrentConnectionIDs" r.idList

end MediaRelay.ConnectionManagerService
