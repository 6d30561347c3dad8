import DeploymentManager.Routing.Algo
import DeploymentManager.Routing.Partition
import DeploymentManager.Routing.Bisection
import DeploymentManager.Routing.Balance
import DeploymentManager.Metrics.Registry
import DeploymentManager.Metrics.Unique
import DeploymentManager.Metrics.Histogram
import DeploymentManager.Metrics.Updates
import DeploymentManager.Ssh.Store
import DeploymentManager.Ssh.Model
import DeploymentManager.Ssh.Steps
import DeploymentManager.Ssh.Replicas
import DeploymentManager.Ssh.Assignments
import DeploymentManager.Ssh.Components
import DeploymentManager.Ssh.Launches
import DeploymentManager.Ssh.Proxies
import DeploymentManager.Ssh.RoutingRecords
import DeploymentManager.Ssh.Watch
import DeploymentManager.Ssh.MetricsPage
import DeploymentManager.Status.Dashboard
import DeploymentManager.Proxy.Director
