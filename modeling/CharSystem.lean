import CharSystem.Channel.BrpcTest
import CharSystem.Channel.Machine
import CharSystem.Manager.Routing
import CharSystem.Manager.Failure
import CharSystem.Manager.Alike
import CharSystem.Manager.Offline
import CharSystem.Etcd.Watch
import CharSystem.Etcd.Deployment
import CharSystem.Search.Query
import CharSystem.Search.Index
import CharSystem.Echo.RoundTrip
import CharSystem.Mq.Delivery
import CharSystem.Odb.Runs
